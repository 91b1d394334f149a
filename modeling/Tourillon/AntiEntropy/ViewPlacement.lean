import Tourillon.AntiEntropy.BuildView
import Tourillon.Gossip.Derivation

namespace Tourillon

open Endian Exceptional Distinct TopologyManager List OrderedMap TopologyCall VNode

variable {s : SimplePlacementStrategy} {t : Topology}

namespace Ring

variable {r : Ring}

theorem successor_ok (h : r.vnodes ≠ []) (token : Int) : ∃ v, r.successor token = .ok v := by
  rw [successor]
  cases hturn : r.vnodes.rotate (r.bisectLeft token) with
  | nil => exact absurd (rotate_eq_nil_iff.mp hturn) h
  | cons v rest => exact ⟨v, rfl⟩

theorem bisectLeft_eq {token : Int} (before rest : List VNode) (hsplit : r.vnodes = before ++ rest)
    (hbefore : ∀ u ∈ before, u.token < token) (hrest : ∀ u ∈ rest.head?, token ≤ u.token) :
    r.bisectLeft token = before.length := by
  have htail : rest.takeWhile (fun u => u.token < token) = [] := by
    cases rest with
    | nil => rfl
    | cons u rest => exact takeWhile_cons_of_neg (by simpa using hrest u rfl)
  rw [bisectLeft, hsplit, takeWhile_append_of_pos (by simpa using hbefore), htail, append_nil]

theorem bisectLeft_split (r : Ring) (token : Int) : ∃ before rest, r.vnodes = before ++ rest ∧
    (∀ u ∈ before, u.token < token) ∧ ∀ u ∈ rest.head?, token ≤ u.token := by
  refine ⟨r.vnodes.takeWhile fun u => u.token < token, r.vnodes.dropWhile fun u => u.token < token,
    takeWhile_append_dropWhile.symm, ?_, ?_⟩
  · intro u hu
    simpa using mem_takeWhile_imp hu
  · intro u hu
    have hstop := head?_dropWhile_not (fun u : VNode => u.token < token) r.vnodes
    rw [hu] at hstop
    simpa using hstop

theorem iterFrom_successor {token : Int} {v : VNode} (h : r.successor token = .ok v) :
    r.iterFrom v = r.vnodes.rotate (r.bisectLeft token) := by
  obtain ⟨before, rest, hsplit, hbefore, hrest⟩ := r.bisectLeft_split token
  rw [successor, bisectLeft_eq _ _ hsplit hbefore hrest] at h
  rw [iterFrom, bisectLeft_eq _ _ hsplit hbefore hrest]
  cases rest with
  | nil =>
    rw [append_nil] at hsplit
    rw [hsplit, rotate_length] at h ⊢
    cases before with
    | nil => cases h
    | cons u before =>
      cases h
      rw [bisectLeft_eq [] (v :: before) hsplit nofun (by simp)]
      exact rotate_zero _
  | cons u rest =>
    rw [hsplit, rotate_append_length_eq] at h
    cases h
    have hle : token ≤ v.token := hrest v rfl
    rw [bisectLeft_eq _ _ hsplit (fun u hu => (hbefore u hu).trans_le hle) (by simp)]

end Ring

namespace Topology

variable (t : Topology) {rf : Nat}

theorem get_foldl_notePhase (id : String) (vs : List VNode) (found : OrderedMap String MemberPhase) :
    (vs.foldl t.notePhase found).get id =
      if id ∈ vs.map nodeId then ((t.registry.get id).map Member.phase).or (found.get id)
      else found.get id := by
  induction vs generalizing found with
  | nil => rfl
  | cons v vs ih =>
    rw [foldl_cons, ih, notePhase]
    by_cases hid : id = v.nodeId
    · subst hid
      cases hget : t.registry.get v.nodeId with
      | none => simp
      | some m => simp
    · cases hget : t.registry.get v.nodeId with
      | none => simp [hid]
      | some m => simp [hid, get_insert_of_ne _ _ hid]

theorem get_phases {id : String} (h : id ∈ t.ring.vnodes.map nodeId) :
    t.phases.get id = (t.registry.get id).map Member.phase := by
  rw [phases, get_foldl_notePhase, if_pos h, get_empty, Option.or_none]

theorem mem_known {keep : MemberPhase → Bool} {id : String} (h : id ∈ t.ring.vnodes.map nodeId) :
    id ∈ t.known keep ↔ (t.registry.get id).any (fun m => keep m.phase) = true := by
  have hphase := t.get_phases h
  rw [known, mem_map]
  constructor
  · rintro ⟨e, he, rfl⟩
    obtain ⟨hentry, hkeep⟩ := mem_filter.mp he
    rw [get_eq_some.mpr hentry] at hphase
    obtain ⟨m, hm, hp⟩ := Option.map_eq_some_iff.mp hphase.symm
    rw [hm, Option.any_some, hp]
    exact hkeep
  · intro hany
    obtain ⟨m, hm, hkeep⟩ := (Option.any_eq_true _ _).mp hany
    rw [hm] at hphase
    exact ⟨(id, m.phase), mem_filter.mpr ⟨get_eq_some.mp hphase, hkeep⟩, rfl⟩

def firstMet (keep : MemberPhase → Bool) (rf : Nat) (start : VNode) : List String :=
  ((((t.ring.iterFrom start).map nodeId).filter fun id =>
    (t.registry.get id).any fun m => keep m.phase).eraseDups).take rf

variable {t}

theorem walk_eq_firstMet {token : Int} {v : VNode} (hrf : 1 ≤ rf) (hv : t.ring.successor token = .ok v)
    (keep : MemberPhase → Bool) : t.ring.walk (t.ring.bisectLeft token % t.ring.vnodes.length) (t.known keep) rf =
      t.firstMet keep rf v := by
  have hturn : turn t.ring.vnodes (t.ring.bisectLeft token % t.ring.vnodes.length) = t.ring.iterFrom v := by
    rw [turn_eq_rotate, List.rotate_mod, Ring.iterFrom_successor hv]
  have hring : ∀ id ∈ (t.ring.iterFrom v).map nodeId, id ∈ t.ring.vnodes.map nodeId := by
    intro id hid
    rw [Ring.iterFrom, List.map_rotate, List.mem_rotate] at hid
    exact hid
  rw [Ring.walk, firstDistinct_eq hrf, hturn, firstMet]
  congr 2
  apply List.filter_congr
  intro id hid
  rw [Bool.eq_iff_iff, decide_eq_true_iff]
  exact t.mem_known (hring id hid)

theorem owners_eq_firstDistinct (vs : List VNode) (members : List Member) (last : VNode) (h : members.length ≠ rf) :
    (t.owners rf vs members last).1.map (fun m => m.nodeId) =
      firstDistinct (fun id => (t.registry.get id).any fun m => m.phase ∉ excludedPhases) rf
        (vs.map nodeId) (members.map fun m => m.nodeId) := by
  induction vs generalizing members last with
  | nil => rfl
  | cons v vs ih =>
    rw [owners, map_cons, firstDistinct]
    cases hget : t.registry.get v.nodeId with
    | none =>
      simp only [Option.any_none, Bool.false_eq_true, false_and, if_false]
      exact ih members last h
    | some m =>
      have hid : m.nodeId = v.nodeId := t.keyed _ _ hget
      by_cases hphase : m.phase ∈ excludedPhases
      · simp only [hphase, if_true, Option.any_some, not_true, decide_false, Bool.false_eq_true,
          false_and, if_false]
        exact ih members last h
      · by_cases hfresh : v.nodeId ∈ members.map fun m => m.nodeId
        · simp only [hphase, if_false, Option.any_some, not_false_eq_true, decide_true, true_and, hid,
            hfresh, not_true, h]
          exact ih members last h
        · simp only [hphase, if_false, Option.any_some, not_false_eq_true, decide_true, true_and, hid,
            hfresh, if_true]
          have hnames : (members.map fun m => m.nodeId) ++ [v.nodeId] =
              (members ++ [m]).map fun m => m.nodeId := by
            rw [map_append, map_singleton, hid]
          rw [hnames, length_map]
          by_cases hfull : (members ++ [m]).length = rf
          · rw [if_pos hfull, if_pos hfull]
          · rw [if_neg hfull, if_neg hfull]
            exact ih (members ++ [m]) v hfull

theorem owners_eq_firstMet (hrf : 1 ≤ rf) (v : VNode) :
    (t.owners rf (t.ring.iterFrom v) [] v).1.map (fun m => m.nodeId) =
      t.firstMet (fun phase => phase ∉ excludedPhases) rf v := by
  have hzero : ([] : List Member).length ≠ rf := by
    rw [length_nil]
    omega
  rw [owners_eq_firstDistinct _ _ _ hzero, map_nil, firstDistinct_eq hrf, firstMet]

def Undrained (t : Topology) : Prop := ∀ v ∈ t.ring.vnodes, ∀ m ∈ t.registry.get v.nodeId, m.phase ≠ .draining

theorem firstMet_undrained (hhoused : t.registry.Houses t.ring) (hundrained : t.Undrained) (rf : Nat) (v : VNode) :
    t.firstMet (fun phase => phase ∉ excludedPhases) rf v = t.firstMet (fun phase => phase ≠ .draining) rf v := by
  rw [firstMet, firstMet]
  congr 2
  apply List.filter_congr
  intro id hid
  rw [Ring.iterFrom, List.map_rotate, List.mem_rotate] at hid
  obtain ⟨u, hu, rfl⟩ := List.mem_map.mp hid
  obtain ⟨m, hm, hphase⟩ := hhoused u hu
  have hdraining := hundrained u hu m hm
  have hexcluded : m.phase ∉ excludedPhases := by
    intro hin
    revert hin hphase
    cases m.phase <;> decide
  simp only [hm, Option.any_some, hexcluded, hdraining, not_false_eq_true, ne_eq, decide_true]

end Topology

theorem SimplePlacementStrategy.preferenceList_owners (hrf : 1 ≤ s.rf) {addr : Address} {encoded : Bytes}
    (hencoded : addr.toBytes = .ok encoded) {v : VNode} (hv : t.ring.successor (s.partitioner.partitionEnd s.space
      (s.partitioner.pidForHash s.space (s.space.hash encoded))) = .ok v) (alive : String → Bool) :
    ∃ list, s.preferenceList t alive addr = .ok list ∧ list.preferences.map (fun e => e.nodeId) =
        t.firstMet (fun phase => phase ∉ excludedPhases) s.rf v := by
  have hplacement : s.placementAddr addr t.ring =
      .ok ⟨s.partitioner.pidForHash s.space (s.space.hash encoded),
        s.partitioner.groupFor (s.partitioner.pidForHash s.space (s.space.hash encoded)), v⟩ := by
    simp only [placementAddr, bind_eq_ok, pure_eq_ok]
    exact ⟨encoded, hencoded, v, hv, rfl⟩
  refine ⟨_, by rw [preferenceList, hplacement]; rfl, ?_⟩
  rw [assignHandoffs_owners]
  exact Topology.owners_eq_firstMet hrf v

structure ViewAgrees (t : Topology) (s : SimplePlacementStrategy) (view : ReplicaView) : Prop where
  complete : view.replicas.length = s.partitioner.totalPartitions ∧
    view.sources.length = s.partitioner.totalPartitions
  walked : ∀ pid < s.partitioner.totalPartitions,
    ∃ v, t.ring.successor (s.partitioner.partitionEnd s.space pid) = .ok v ∧
      view.replicas[pid]? = some (t.firstMet (fun phase => phase ≠ .draining) s.rf v) ∧
      view.sources[pid]? = some (t.firstMet (fun phase => phase ≠ .joining) s.rf v)
  placed : t.Undrained → ∀ pid < s.partitioner.totalPartitions, ∀ addr encoded,
    addr.toBytes = .ok encoded → s.partitioner.pidForHash s.space (s.space.hash encoded) = pid →
      ∀ alive, ∃ list, s.preferenceList t alive addr = .ok list ∧
        view.replicas[pid]? = some (list.preferences.map fun e => e.nodeId)

theorem recomputedView_walked (hrf : 1 ≤ s.rf) (serial node : String) {pid : Nat}
    (hpid : pid < s.partitioner.totalPartitions) {v : VNode}
    (hv : t.ring.successor (s.partitioner.partitionEnd s.space pid) = .ok v) :
    (recomputedView t serial s.partitioner s.space s.rf node).replicas[pid]? =
        some (t.firstMet (fun phase => phase ≠ .draining) s.rf v) ∧
      (recomputedView t serial s.partitioner s.space s.rf node).sources[pid]? =
        some (t.firstMet (fun phase => phase ≠ .joining) s.rf v) := by
  have hindex : (range s.partitioner.totalPartitions)[pid]? = some pid := by rw [getElem?_range hpid]
  constructor
  · rw [recomputedView, getElem?_map, hindex, Option.map_some]
    exact congrArg some (Topology.walk_eq_firstMet hrf hv _)
  · rw [recomputedView, getElem?_map, hindex, Option.map_some]
    exact congrArg some (Topology.walk_eq_firstMet hrf hv _)

theorem viewAgrees_recomputed (hhoused : t.registry.Houses t.ring) (hring : t.ring.vnodes ≠ [])
    (hrf : 1 ≤ s.rf) (serial node : String) :
    ViewAgrees t s (recomputedView t serial s.partitioner s.space s.rf node) where
  complete := by simp [recomputedView]
  walked pid hpid := by
    obtain ⟨v, hv⟩ := Ring.successor_ok hring (s.partitioner.partitionEnd s.space pid)
    exact ⟨v, hv, recomputedView_walked hrf serial node hpid hv⟩
  placed hundrained pid hpid addr encoded hencoded hhash alive := by
    obtain ⟨v, hv⟩ := Ring.successor_ok hring (s.partitioner.partitionEnd s.space pid)
    subst hhash
    obtain ⟨list, hlist, howners⟩ := s.preferenceList_owners hrf hencoded hv alive
    refine ⟨list, hlist, ?_⟩
    rw [(recomputedView_walked hrf serial node hpid hv).1, howners, Topology.firstMet_undrained hhoused hundrained]

theorem view_agrees_with_placement [Digests] (calls : List TopologyCall)
    (hring : (snapshot calls).ring.vnodes ≠ []) (s : SimplePlacementStrategy)
    (hrf : 1 ≤ s.rf) (serial node : String) : ViewAgrees (snapshot calls) s
        (buildView (snapshot calls) serial s.partitioner s.space s.rf node) ∧
      buildView (snapshot calls) serial s.partitioner s.space s.rf node =
        recomputedView (snapshot calls) serial s.partitioner s.space s.rf node := by
  have hmemo := buildView_eq_recomputed hring serial s.partitioner s.space s.rf node
  refine ⟨?_, hmemo⟩
  rw [hmemo]
  exact viewAgrees_recomputed (housed_runAll calls) hring hrf serial node

namespace Sample

def gathered : List TopologyCall := [.mergeRegistry [first, other]]

def quarters : SimplePlacementStrategy := ⟨2, ⟨2, 1, Nat.one_lt_two⟩, ⟨8, fun encoded => encoded.length % 256⟩⟩

theorem gathered_on_ring : (snapshot gathered).ring.vnodes ≠ [] := by
  have hgiven : given gathered = {first, other} := by
    ext m
    simp [given, records, gathered]
  have hderived := @derived_runAll _ gathered ⟨by decide +kernel, trivial⟩
  rw [hgiven] at hderived
  obtain ⟨u, hu, _⟩ := hderived.joined.greatest other (by simp)
  have hmember : u = other := by
    rcases (hderived.joined.sound _ u hu).1 with rfl | rfl
    · exact absurd (hderived.joined.sound _ first hu).2 (by decide)
    · rfl
  have hposition : (⟨5, "b"⟩ : VNode) ∈ (runAll gathered).registry.positions := by
    refine mem_flatMap.mpr ⟨other, mem_filter.mpr ⟨mem_map.mpr ⟨("b", other), ?_, rfl⟩, rfl⟩, ?_⟩
    · rw [hmember] at hu
      exact get_eq_some.mp hu
    · decide +kernel
  exact ne_nil_of_mem (hderived.ring.mem_iff.mpr hposition)

theorem gathered_view_agrees : ViewAgrees (snapshot gathered) quarters
      (buildView (snapshot gathered) "s" quarters.partitioner quarters.space quarters.rf "b") :=
  (view_agrees_with_placement gathered gathered_on_ring quarters (by decide) "s" "b").1

end Sample

end Tourillon
