import Tourillon.AntiEntropy.ViewPlacement

namespace Tourillon

open Endian Exceptional Distinct TopologyManager List Topology VNode

variable {members : List Member} {candidates : List String} {e : Preference}

namespace Ring

variable {r : Ring} {token : Int} {v : VNode}

def clockwise (r : Ring) (token : Int) : List VNode :=
  (r.vnodes.filter fun v => token ≤ v.token) ++ r.vnodes.filter fun v => v.token < token

theorem iterFrom_clockwise (h : r.successor token = .ok v) : r.iterFrom v = r.clockwise token := by
  obtain ⟨before, rest, hring, hbefore, hrest⟩ := r.bisectLeft_split token
  have hsorted := r.sorted
  rw [hring] at hsorted
  have hbeyond : ∀ u ∈ rest, token ≤ u.token := by
    intro u hu
    cases rest with
    | nil => cases hu
    | cons first rest =>
      have hfirst : token ≤ first.token := hrest first rfl
      rcases mem_cons.mp hu with rfl | hlater
      · exact hfirst
      · exact hfirst.trans ((pairwise_cons.mp (pairwise_append.mp hsorted).2.1).1 u hlater)
  have habove : (r.vnodes.filter fun u => token ≤ u.token) = rest := by
    rw [hring, filter_append, filter_eq_nil_iff.mpr, nil_append, filter_eq_self.mpr]
    · simpa using hbeyond
    · simpa using hbefore
  have hbelow : (r.vnodes.filter fun u => u.token < token) = before := by
    rw [hring, filter_append, filter_eq_self.mpr, filter_eq_nil_iff.mpr, append_nil]
    · simpa using hbeyond
    · simpa using hbefore
  rw [iterFrom_successor h, bisectLeft_eq before rest hring hbefore hrest, clockwise, habove, hbelow, hring,
    rotate_append_length_eq]

theorem mem_clockwise : v ∈ r.clockwise token ↔ v ∈ r.vnodes := by
  rw [clockwise, mem_append, mem_filter, mem_filter]
  rcases lt_or_ge v.token token with hlt | hge
  · simp [hlt]
  · simp [hge]

end Ring

namespace Topology

variable (t : Topology) {rf : Nat} {alive : String → Bool} {vs : List VNode} {id : String}

def knows (id : String) : Bool := (t.registry.get id).isSome

structure Eligible (alive : String → Bool) (owners : List String) (id : String) : Prop where
  ring : id ∈ t.ring.vnodes.map nodeId
  ready : ∃ m, t.registry.get id = some m ∧ m.phase = .ready
  alive : alive id = true
  apart : id ∉ owners

variable {t}

theorem mem_handoffCandidates {seen : List String} : id ∈ t.handoffCandidates alive vs seen ↔ id ∈ vs.map nodeId ∧
      (∃ m, t.registry.get id = some m ∧ m.phase = .ready) ∧ alive id = true ∧ id ∉ seen := by
  induction vs generalizing seen with
  | nil => simp [handoffCandidates]
  | cons v vs ih =>
    have hskip (hnot : ¬ ((∃ m, t.registry.get v.nodeId = some m ∧ m.phase = .ready) ∧
        alive v.nodeId = true ∧ v.nodeId ∉ seen)) :
        id ∈ t.handoffCandidates alive vs seen ↔ id ∈ (v :: vs).map nodeId ∧
          (∃ m, t.registry.get id = some m ∧ m.phase = .ready) ∧ alive id = true ∧ id ∉ seen := by
      rw [ih, map_cons, mem_cons]
      constructor
      · rintro ⟨hin, hrest⟩
        exact ⟨.inr hin, hrest⟩
      · rintro ⟨rfl | hin, hrest⟩
        · exact absurd hrest hnot
        · exact ⟨hin, hrest⟩
    unfold handoffCandidates
    split
    · rename_i hnone
      refine hskip ?_
      rintro ⟨⟨m, hm, _⟩, _⟩
      rw [hnone] at hm
      cases hm
    · rename_i m hm
      have hid : m.nodeId = v.nodeId := t.keyed _ _ hm
      split
      · rename_i hphase
        refine hskip ?_
        rintro ⟨⟨m', hm', hready⟩, _⟩
        rw [hm] at hm'
        cases hm'
        exact hphase hready
      · rename_i hphase
        split
        · rename_i hseen
          refine hskip ?_
          rintro ⟨_, _, hfresh⟩
          exact hfresh (hid ▸ hseen)
        · rename_i hfresh
          split
          · rename_i hdead
            refine hskip ?_
            rintro ⟨_, halive, _⟩
            rw [hid, halive] at hdead
            cases hdead
          · rename_i halive
            rw [hid] at hfresh halive
            rw [mem_cons, ih, map_cons, mem_cons, mem_cons]
            constructor
            · rintro (rfl | ⟨hin, hready, hup, hnew⟩)
              · exact ⟨.inl rfl, ⟨m, hm, not_not.mp hphase⟩, by simpa using halive, hfresh⟩
              · exact ⟨.inr hin, hready, hup, fun hold => hnew (.inr hold)⟩
            · rintro ⟨hin, hready, hup, hnew⟩
              by_cases heq : id = v.nodeId
              · exact .inl heq
              · refine .inr ⟨hin.resolve_left heq, hready, hup, ?_⟩
                rintro (hsame | hold)
                · exact heq hsame
                · exact hnew hold

theorem owners_registered {members : List Member} {last : VNode}
    (h : ∀ m ∈ members, t.registry.get m.nodeId = some m) :
    ∀ m ∈ (t.owners rf vs members last).1, t.registry.get m.nodeId = some m := by
  induction vs generalizing members last with
  | nil => exact h
  | cons v vs ih =>
    unfold owners
    split
    · exact ih h
    · rename_i m hm
      split
      · exact ih h
      · have hid : m.nodeId = v.nodeId := t.keyed _ _ hm
        dsimp only
        split
        · have hnext : ∀ x ∈ members ++ [m], t.registry.get x.nodeId = some x := by
            intro x hx
            rcases mem_append.mp hx with hold | hnew
            · exact h x hold
            · rw [mem_singleton.mp hnew, hid]
              exact hm
          split
          · exact hnext
          · exact ih hnext
        · split
          · exact h
          · exact ih h

def Active (t : Topology) : Prop := ∀ v ∈ t.ring.vnodes, ∀ m ∈ t.registry.get v.nodeId, m.phase ∈ ringPhases

theorem snapshot_active [Digests] (calls : List TopologyCall) : (snapshot calls).Active := by
  intro v hv m hm
  obtain ⟨u, hu, hphase⟩ := housed_runAll calls v hv
  have hsame : u = m := Option.some.inj (hu.symm.trans hm)
  exact hsame ▸ hphase

theorem mem_firstMet {keep : MemberPhase → Bool} {start : VNode} (h : id ∈ t.firstMet keep rf start) :
    id ∈ t.ring.vnodes.map nodeId := by
  have hwalk := (List.mem_filter.mp (List.mem_eraseDups.mp (List.mem_of_mem_take h))).1
  rw [Ring.iterFrom, List.map_rotate, List.mem_rotate] at hwalk
  exact hwalk

theorem firstMet_clockwise (hactive : t.Active) {token : Nat} {v : VNode}
    (hv : t.ring.successor token = .ok v) : t.firstMet (fun phase => phase ∉ excludedPhases) rf v =
      ((((t.ring.clockwise token).map nodeId).filter t.knows).eraseDups).take rf := by
  rw [firstMet, ← Ring.iterFrom_clockwise hv]
  congr 2
  apply List.filter_congr
  intro id hid
  rw [Ring.iterFrom, List.map_rotate, List.mem_rotate] at hid
  obtain ⟨u, hu, rfl⟩ := List.mem_map.mp hid
  rw [knows]
  cases hget : t.registry.get u.nodeId with
  | none => rfl
  | some m =>
    have hphase : m.phase ∈ ringPhases := hactive u hu m hget
    have hexcluded : m.phase ∉ excludedPhases := by
      intro hin
      revert hin hphase
      cases m.phase <;> decide
    simp [hexcluded]

theorem Active.needsHandoff (hactive : t.Active) {m : Member}
    (hring : m.nodeId ∈ t.ring.vnodes.map nodeId) (hget : t.registry.get m.nodeId = some m) :
    m.needsHandoff alive = true ↔
      m.phase = .joining ∨ m.phase = .draining ∨ m.phase = .paused ∨ alive m.nodeId = false := by
  obtain ⟨u, hu, hid⟩ := mem_map.mp hring
  have hphase : m.phase ∈ ringPhases := hactive u hu m (hid ▸ hget)
  rw [Member.needsHandoff]
  revert hphase
  cases m.phase <;> simp [ringPhases, alwaysHandoffPhases]

end Topology

theorem assignHandoffs_members (alive : String → Bool) (he : e ∈ assignHandoffs alive members candidates) :
    ∃ m ∈ members, e.nodeId = m.nodeId ∧ (m.needsHandoff alive = false → e.handoff = none) := by
  induction members generalizing candidates with
  | nil => cases he
  | cons m members ih =>
    unfold assignHandoffs at he
    split at he
    · rename_i hneeds
      rcases mem_cons.mp he with rfl | hlater
      · refine ⟨m, mem_cons_self .., rfl, ?_⟩
        intro hnot
        rw [hneeds] at hnot
        cases hnot
      · obtain ⟨x, hx, hrest⟩ := ih hlater
        exact ⟨x, mem_cons_of_mem _ hx, hrest⟩
    · rcases mem_cons.mp he with rfl | hlater
      · exact ⟨m, mem_cons_self .., rfl, fun _ => rfl⟩
      · obtain ⟨x, hx, hrest⟩ := ih hlater
        exact ⟨x, mem_cons_of_mem _ hx, hrest⟩

theorem assignHandoffs_exhausted (alive : String → Bool) {before after : List Preference}
    (hsplit : assignHandoffs alive members candidates = before ++ e :: after) (hnone : e.handoff = none)
    (hneeds : ∀ m ∈ members, m.nodeId = e.nodeId → m.needsHandoff alive = true) :
    ∀ id ∈ candidates, id ∈ before.flatMap fun e => e.handoff.toList := by
  induction members generalizing candidates before with
  | nil =>
    rw [assignHandoffs] at hsplit
    cases before <;> cases hsplit
  | cons m members ih =>
    have hlater : ∀ x ∈ members, x.nodeId = e.nodeId → x.needsHandoff alive = true :=
      fun x hx => hneeds x (mem_cons_of_mem _ hx)
    unfold assignHandoffs at hsplit
    split at hsplit
    · cases before with
      | nil =>
        obtain ⟨hfirst, _⟩ := cons.inj hsplit
        rw [← hfirst] at hnone
        cases candidates with
        | nil => nofun
        | cons c rest => cases hnone
      | cons first before =>
        obtain ⟨hfirst, hrest⟩ := cons.inj hsplit
        rw [← hfirst]
        intro id hid
        cases candidates with
        | nil => cases hid
        | cons c rest =>
          rw [flatMap_cons, mem_append]
          rcases mem_cons.mp hid with rfl | hin
          · exact .inl (by simp)
          · exact .inr (ih hrest hlater id hin)
    · rename_i hspared
      cases before with
      | nil =>
        obtain ⟨hfirst, _⟩ := cons.inj hsplit
        have hid : m.nodeId = e.nodeId := by rw [← hfirst]
        exact absurd (hneeds m mem_cons_self hid) hspared
      | cons first before =>
        obtain ⟨hfirst, hrest⟩ := cons.inj hsplit
        rw [← hfirst]
        intro id hid
        rw [flatMap_cons, mem_append]
        exact .inr (ih hrest hlater id hid)

structure PreferencesSound (t : Topology) (rf : Nat) (alive : String → Bool) (token : Nat)
    (preferences : List Preference) : Prop where
  owners : preferences.map (fun e => e.nodeId) =
    ((((t.ring.clockwise token).map nodeId).filter t.knows).eraseDups).take rf
  count : preferences.length =
    min rf ((t.ring.vnodes.map nodeId).filter t.knows).toFinset.card
  distinct : (preferences.flatMap fun e => e.handoff.toList).Nodup
  eligible : ∀ e ∈ preferences, ∀ id ∈ e.handoff,
    t.Eligible alive (preferences.map fun e => e.nodeId) id
  covered : ∀ before e after, preferences = before ++ e :: after →
    ∀ m, t.registry.get e.nodeId = some m →
      (m.phase = .joining ∨ m.phase = .draining ∨ m.phase = .paused ∨ alive e.nodeId = false) →
      e.handoff = none → ∀ id, t.Eligible alive (preferences.map fun e => e.nodeId) id →
        id ∈ before.flatMap fun e => e.handoff.toList
  spared : ∀ e ∈ preferences, ∀ m, t.registry.get e.nodeId = some m →
    ¬ (m.phase = .joining ∨ m.phase = .draining ∨ m.phase = .paused ∨ alive e.nodeId = false) →
      e.handoff = none

theorem preferencesSound_of_walk {t : Topology} (hactive : t.Active) {rf token : Nat} (hrf : 1 ≤ rf)
    {v : VNode} (hv : t.ring.successor token = .ok v) (alive : String → Bool) {last : VNode}
    (hwalk : t.owners rf (t.ring.iterFrom v) [] v = (members, last)) :
    PreferencesSound t rf alive token (assignHandoffs alive members
      (t.handoffCandidates alive (t.ring.iterFrom last) (members.map fun m => m.nodeId))) := by
  have hnames : members.map (fun m => m.nodeId) =
      t.firstMet (fun phase => phase ∉ excludedPhases) rf v := by
    rw [← owners_eq_firstMet hrf v, hwalk]
  have hclockwise := hnames.trans (firstMet_clockwise hactive hv)
  have hregistered : ∀ m ∈ members, t.registry.get m.nodeId = some m := by
    have hall : ∀ m ∈ (t.owners rf (t.ring.iterFrom v) [] v).1, t.registry.get m.nodeId = some m :=
      owners_registered (List.forall_mem_nil _)
    rw [hwalk] at hall
    exact hall
  have hneeds : ∀ m ∈ members, (m.needsHandoff alive = true ↔
      m.phase = .joining ∨ m.phase = .draining ∨ m.phase = .paused ∨ alive m.nodeId = false) := by
    intro m hm
    refine hactive.needsHandoff (mem_firstMet (hnames ▸ List.mem_map_of_mem hm)) ?_
    exact hregistered m hm
  have heligible (id : String) : id ∈ t.handoffCandidates alive (t.ring.iterFrom last)
      (members.map fun m => m.nodeId) ↔ t.Eligible alive (members.map fun m => m.nodeId) id := by
    rw [mem_handoffCandidates, Ring.iterFrom, List.map_rotate, List.mem_rotate]
    refine ⟨?_, fun h => ⟨h.ring, h.ready, h.alive, h.apart⟩⟩
    rintro ⟨hring, hready, hup, hapart⟩
    exact ⟨hring, hready, hup, hapart⟩
  have howners := assignHandoffs_owners alive members
    (t.handoffCandidates alive (t.ring.iterFrom last) (members.map fun m => m.nodeId))
  have hsub := assignHandoffs_handoffs alive members
    (t.handoffCandidates alive (t.ring.iterFrom last) (members.map fun m => m.nodeId))
  constructor
  case owners => rw [howners, hclockwise]
  case count =>
    rw [← List.length_map (fun e : Preference => e.nodeId), howners, hclockwise, List.length_take, length_eraseDups]
    congr 2
    ext id
    simp only [List.mem_toFinset, List.mem_filter, List.mem_map, Ring.mem_clockwise]
  case distinct => exact (t.handoffCandidates_spec alive _ _).1.sublist hsub
  case eligible =>
    intro e he id hid
    rw [howners]
    exact (heligible id).mp (hsub.subset (List.mem_flatMap.mpr ⟨e, he, by simpa using hid⟩))
  case covered =>
    intro before e after hsplit m hget hcause hnone id hid
    rw [howners] at hid
    refine assignHandoffs_exhausted alive hsplit hnone ?_ id ((heligible id).mpr hid)
    intro x hx hsame
    have hxm : x = m := Option.some.inj ((hregistered x hx).symm.trans (hsame ▸ hget))
    subst hxm
    exact (hneeds x hx).mpr (hsame ▸ hcause)
  case spared =>
    intro e he m hget hcause
    obtain ⟨x, hx, hsame, hspared⟩ := assignHandoffs_members alive he
    have hxm : x = m := Option.some.inj ((hregistered x hx).symm.trans (hsame ▸ hget))
    subst hxm
    refine hspared ?_
    rw [← Bool.not_eq_true, hneeds x hx, ← hsame]
    exact hcause

theorem preference_lists_well_formed [Digests] : (∀ calls, (snapshot calls).Active) ∧
      ∀ t : Topology, t.Active → t.ring.vnodes ≠ [] → ∀ s : SimplePlacementStrategy, 1 ≤ s.rf →
        ∀ (alive : String → Bool) (addr : Address) (encoded : Bytes), addr.toBytes = .ok encoded →
          ∃ list, s.preferenceList t alive addr = .ok list ∧
            PreferencesSound t s.rf alive (s.partitioner.partitionEnd s.space
              (s.partitioner.pidForHash s.space (s.space.hash encoded))) list.preferences := by
  refine ⟨snapshot_active, ?_⟩
  intro t hactive hring s hrf alive addr encoded hencoded
  obtain ⟨pid, hpid⟩ : ∃ pid, s.partitioner.pidForHash s.space (s.space.hash encoded) = pid := ⟨_, rfl⟩
  rw [hpid]
  obtain ⟨v, hv⟩ := Ring.successor_ok hring (s.partitioner.partitionEnd s.space pid)
  obtain ⟨⟨members, last⟩, hwalk⟩ : ∃ found, t.owners s.rf (t.ring.iterFrom v) [] v = found := ⟨_, rfl⟩
  refine ⟨⟨⟨pid, s.partitioner.groupFor pid, v⟩, assignHandoffs alive members (t.handoffCandidates alive (t.ring.iterFrom last)
    (members.map fun m => m.nodeId))⟩, ?_, preferencesSound_of_walk hactive hrf hv alive hwalk⟩
  simp only [SimplePlacementStrategy.preferenceList, SimplePlacementStrategy.placementAddr, bind_eq_ok, pure_eq_ok]
  exact ⟨_, ⟨encoded, hencoded, v, by rw [hpid]; exact hv, by rw [hpid]⟩, by rw [hwalk]⟩

namespace Sample

theorem gathered_preferences_sound : ∃ list,
    quarters.preferenceList (snapshot gathered) (fun id => id = "b") ⟨[1], [2]⟩ = .ok list ∧
      PreferencesSound (snapshot gathered) 2 (fun id => id = "b") 64 list.preferences :=
  preference_lists_well_formed.2 (snapshot gathered)
    (preference_lists_well_formed.1 gathered) gathered_on_ring quarters (by decide) (fun id => id = "b")
    ⟨[1], [2]⟩ _ rfl

end Sample

end Tourillon
