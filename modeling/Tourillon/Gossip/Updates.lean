import Tourillon.Gossip.Derivation

namespace Tourillon

open Prog Machine TopologyCall TopologyManager MemberRegistry

section Failures

variable [Digests] {t t' t'' : TopologyManager} {m : Member} {members : List Member}

def TopologyCall.updateError (t : TopologyManager) : TopologyCall → Option PyError
  | applyMember m =>
    match (TopologyManager.applyMember m t).1 with
    | .ok _ => none
    | .error e => some e
  | mergeRegistry members =>
    match (TopologyManager.mergeRegistry members t).1 with
    | .ok _ => none
    | .error e => some e
  | memberFingerprint => none

structure Unmoved (t t' : TopologyManager) : Prop where
  serial : t'.ring.serial = t.ring.serial
  phases : ∀ nodeId, t'.phaseOf nodeId ∈ ringPhases → t'.phaseOf nodeId = t.phaseOf nodeId

theorem Unmoved.refl (t : TopologyManager) : Unmoved t t := ⟨rfl, fun _ _ => rfl⟩

theorem Unmoved.trans (h : Unmoved t t') (h' : Unmoved t' t'') : Unmoved t t'' where
  serial := h'.serial.trans h.serial
  phases nodeId hin := by
    have hlate := h'.phases nodeId hin
    rw [hlate] at hin
    exact hlate.trans (h.phases nodeId hin)

theorem Serials.unmoved {ring : Ring} {registry : MemberRegistry} {fingerprint : Option String}
    (h : Serials t ring (registry.get m.nodeId) m false) (ht : t.registry = registry.insert m.nodeId m) :
    Unmoved { t with registry := registry, fingerprint := fingerprint } { t with ring := ring } := by
  obtain ⟨serial, previous, hserial, hprevious, hflag⟩ := h.found
  split at hflag
  · rename_i hsame
    refine ⟨(hserial.trans (hsame ▸ rfl)).trans hprevious.symm, ?_⟩
    intro nodeId hin
    unfold phaseOf at hin ⊢
    dsimp only at hin ⊢
    rw [ht, OrderedMap.get_insert] at hin ⊢
    split
    · rename_i hnode
      rw [if_pos hnode] at hin
      rw [hnode]
      by_contra hne
      have hmoved : ((registry.get m.nodeId).map fun u => u.phase).getD .idle ≠ m.phase :=
        fun heq => hne heq.symm
      have hphase : m.phase ∈ ringPhases := hin
      simp [hmoved, hphase] at hflag
    · rfl
  · cases hflag

theorem apply_unmoved (h : apply m t = (.ok false, t')) : Unmoved t t' := by
  rcases apply_cases m t with ⟨hnew, hrun⟩ | ⟨_, hrun⟩
  · rw [hrun] at h
    rcases updateRing_cases (t.registry.get m.nodeId) m
        { t with registry := t.registry.insert m.nodeId m, fingerprint := none } with
      ⟨e, _, hupdate⟩ | ⟨ring, _, ⟨e, _, hupdate⟩ | ⟨flag, hserials, hupdate⟩⟩
    · cases hupdate.symm.trans h
    · cases hupdate.symm.trans h
    · cases hupdate.symm.trans h
      exact hserials.unmoved rfl
  · cases hrun.symm.trans h
    exact Unmoved.refl _

theorem collect_unmoved {flags : List Bool} (h : collect members apply t = (.ok flags, t'))
    (hflags : flags.count true = 0) : Unmoved t t' := by
  induction members generalizing t flags with
  | nil =>
    cases h
    exact Unmoved.refl _
  | cons m members ih =>
    obtain ⟨flag, t₁, hhead, h⟩ := of_bind_ok h
    obtain ⟨rest, t₂, htail, h⟩ := of_bind_ok h
    cases h
    cases flag with
    | true => simp at hflags
    | false => exact (apply_unmoved hhead).trans (ih htail (by simpa using hflags))

structure Completed (t : TopologyManager) (call : TopologyCall) : Prop where
  parsed : ∀ node m, (call.run t).registry.get node = some m → m.owns = true →
    m.vnodes = .ok m.positions
  derived : (call.run t).ring.vnodes.Perm (call.run t).registry.positions
  cached : (call.run t).Cached
  notified : (call.run t).generation = t.generation + 1 ∨ Unmoved t (call.run t)

theorem notified_of {c : Prop} [Decidable c] (h : ¬ c → Unmoved t t') (hgeneration : t'.generation = t.generation) :
    ∃ t'', whenever c notify t' = (.ok (), t'') ∧ (t''.generation = t.generation + 1 ∨ Unmoved t t'') := by
  unfold whenever
  split
  · exact ⟨_, rfl, .inl (congrArg (· + 1) hgeneration)⟩
  · rename_i hc
    exact ⟨t', rfl, .inr (h hc)⟩

theorem collect_generation {flags : List Bool} (h : collect members apply t = (.ok flags, t')) :
    t'.generation = t.generation := by
  induction members generalizing t flags with
  | nil =>
    cases h
    rfl
  | cons m members ih =>
    obtain ⟨flag, t₁, hhead, h⟩ := of_bind_ok h
    obtain ⟨rest, t₂, htail, h⟩ := of_bind_ok h
    cases h
    have hkept := apply_generation m t
    rw [hhead] at hkept
    exact (ih htail).trans hkept

theorem fingerprint_unmoved (t : TopologyManager) : Unmoved t (TopologyManager.memberFingerprint t).2 := by
  unfold TopologyManager.memberFingerprint
  rw [bind_ok (rfl : get t = (.ok t, t))]
  cases t.fingerprint with
  | some found => exact Unmoved.refl t
  | none =>
    cases TopologyManager.computeFingerprint t.registry with
    | error e => exact Unmoved.refl t
    | ok found => exact ⟨rfl, fun _ _ => rfl⟩

variable {S : Set Member}

theorem Derived.applyMember (h : Derived S t) (hm : t.registry.newer m = true → m.Numbered) :
    ∃ flag t', TopologyManager.applyMember m t = (.ok flag, t') ∧
      (t'.generation = t.generation + 1 ∨ Unmoved t t') := by
  obtain ⟨flag, t₁, hrun, _⟩ := h.apply hm
  have hkept := TopologyManager.apply_generation m t
  rw [hrun] at hkept
  have hunmoved : ¬ flag = true → Unmoved t t₁ := by
    intro hflag
    rw [Bool.not_eq_true] at hflag
    exact apply_unmoved (hflag ▸ hrun)
  obtain ⟨t', hnotify, hnotified⟩ := notified_of hunmoved hkept
  refine ⟨flag, t', ?_, hnotified⟩
  rw [TopologyManager.applyMember, bind_ok hrun, bind_ok hnotify]
  rfl

theorem Derived.mergeRegistry (h : Derived S t) (hm : ∀ m ∈ t.registry.accepted members, m.Numbered) :
    ∃ n t', TopologyManager.mergeRegistry members t = (.ok n, t') ∧
      (t'.generation = t.generation + 1 ∨ Unmoved t t') := by
  obtain ⟨flags, t₁, hrun, _⟩ := h.collect hm
  have hunmoved : ¬ flags.count true ≠ 0 → Unmoved t t₁ :=
    fun hcount => collect_unmoved hrun (not_not.mp hcount)
  obtain ⟨t', hnotify, hnotified⟩ := notified_of hunmoved (collect_generation hrun)
  refine ⟨flags.count true, t', ?_, hnotified⟩
  rw [TopologyManager.mergeRegistry, bind_ok hrun, bind_ok hnotify]
  rfl

variable {call : TopologyCall}

theorem Derived.returned (h : Derived S t) (hm : TopologyCall.Numbered t call) :
    call.updateError t = none ∧ ((call.run t).generation = t.generation + 1 ∨ Unmoved t (call.run t)) := by
  cases call with
  | applyMember m =>
    obtain ⟨flag, t', hrun, hnotified⟩ := h.applyMember (forall_accepted_cons.mp hm).1
    rw [TopologyCall.updateError, TopologyCall.run, hrun]
    exact ⟨rfl, hnotified⟩
  | mergeRegistry members =>
    change ∀ m ∈ t.registry.accepted members, m.Numbered at hm
    obtain ⟨n, t', hrun, hnotified⟩ := h.mergeRegistry hm
    rw [TopologyCall.updateError, TopologyCall.run, hrun]
    exact ⟨rfl, hnotified⟩
  | memberFingerprint => exact ⟨rfl, .inr (fingerprint_unmoved t)⟩

theorem Derived.completed (h : Derived S t) (hm : TopologyCall.Numbered t call) : Completed t call where
  parsed node m hget howns := by
    obtain ⟨vs, hvs, _⟩ := ((h.run hm).numbered node m hget).tokens howns
    rw [hvs, Member.positions, hvs]
    rfl
  derived := (h.run hm).ring
  cached := (h.run hm).cached
  notified := (h.returned hm).2

def Spoiled (t : TopologyManager) : Prop :=
  (∃ node u, t.registry.get node = some u ∧ u.owns = true ∧ u.vnodes ≠ .ok u.positions) ∨
    ¬ t.ring.Encodable

theorem Derived.apply_spoils (h : Derived S t) (hnew : t.registry.newer m = true) (hm : ¬ m.Numbered) :
    ∃ e t', TopologyManager.apply m t = (.error e, t') ∧ Spoiled t' := by
  rcases TopologyManager.apply_cases m t with ⟨_, hrun⟩ | ⟨⟨u, hget, hle⟩, _⟩
  · rw [hrun]
    have hunencodable {ring : Ring} (hring : TopologyManager.derivedRing t.ring m = .ok ring) :
        ¬ ring.Encodable := fun hencodable => hm (h.encodable.derivable_iff.mp ⟨ring, hring, hencodable⟩)
    rcases TopologyManager.updateRing_cases (t.registry.get m.nodeId) m
        { t with registry := t.registry.insert m.nodeId m, fingerprint := none } with
      ⟨e, hring, hupdate⟩ | ⟨ring, hring, ⟨e, _, hupdate⟩ | ⟨flag, hserials, _⟩⟩
    · refine ⟨e, _, hupdate, .inl ⟨m.nodeId, m, OrderedMap.get_insert_self .., ?_⟩⟩
      rcases TopologyManager.derivedRing_cases t.ring m with ⟨_, howns, hvnodes, _⟩ | ⟨_, ring, hok, _⟩
      · exact ⟨howns, by rw [hvnodes]; nofun⟩
      · cases hring.symm.trans hok
    · exact ⟨e, _, hupdate, .inr (hunencodable hring)⟩
    · obtain ⟨serial, _, hserial, _⟩ := hserials.found
      exact absurd (Ring.serial_ok_iff.mp ⟨serial, hserial⟩) (hunencodable hring)
  · rw [newer_eq_false hget hle] at hnew
    cases hnew

theorem Derived.collect_spoils (h : Derived S t) (hm : ¬ ∀ m ∈ t.registry.accepted members, m.Numbered) :
    ∃ e t', Prog.collect members TopologyManager.apply t = (.error e, t') ∧ Spoiled t' ∧
      t'.generation = t.generation := by
  induction members generalizing S t with
  | nil => exact absurd (fun _ hin => by cases hin) hm
  | cons m members ih =>
    have hkept := TopologyManager.apply_generation m t
    rw [forall_accepted_cons, not_and_or, Classical.not_imp] at hm
    by_cases hfirst : t.registry.newer m = true → m.Numbered
    · obtain ⟨flag, t₁, hrun, h₁⟩ := h.apply hfirst
      have hregistry := TopologyManager.apply_registry m t
      rw [hrun] at hregistry hkept
      obtain ⟨e, t', hrest, hspoiled, hgeneration⟩ := ih h₁
        (hregistry ▸ hm.resolve_left fun hbad => hbad.2 (hfirst hbad.1))
      refine ⟨e, t', ?_, hspoiled, hgeneration.trans hkept⟩
      rw [Prog.collect, bind_ok hrun, bind_error hrest]
    · obtain ⟨hnew, hbad⟩ := Classical.not_imp.mp hfirst
      obtain ⟨e, t', hrun, hspoiled⟩ := h.apply_spoils hnew hbad
      rw [hrun] at hkept
      exact ⟨e, t', by rw [Prog.collect, bind_error hrun], hspoiled, hkept⟩

theorem Derived.run_spoils (h : Derived S t) (hm : ¬ TopologyCall.Numbered t call) :
    call.updateError t ≠ none ∧ Spoiled (call.run t) ∧ (call.run t).generation = t.generation := by
  cases call with
  | applyMember m =>
    change ¬ ∀ u ∈ t.registry.accepted [m], u.Numbered at hm
    obtain ⟨e, t', hcollect, hspoiled⟩ := h.collect_spoils hm
    have hrun : TopologyManager.apply m t = (.error e, t') := by
      rw [Prog.collect] at hcollect
      rcases hrun : TopologyManager.apply m t with ⟨result, t₁⟩
      cases result with
      | error e' =>
        rw [bind_error hrun] at hcollect
        cases hcollect
        rfl
      | ok flag =>
        rw [bind_ok hrun] at hcollect
        cases hcollect
    rw [TopologyCall.updateError, TopologyCall.run, TopologyManager.applyMember, bind_error hrun]
    exact ⟨Option.some_ne_none e, hspoiled⟩
  | mergeRegistry members =>
    change ¬ ∀ u ∈ t.registry.accepted members, u.Numbered at hm
    obtain ⟨e, t', hcollect, hspoiled⟩ := h.collect_spoils hm
    rw [TopologyCall.updateError, TopologyCall.run, TopologyManager.mergeRegistry, bind_error hcollect]
    exact ⟨Option.some_ne_none e, hspoiled⟩
  | memberFingerprint => exact absurd (fun _ hin => by cases hin) hm

theorem Derived.completed_iff (h : Derived S t) (call : TopologyCall) :
    Completed t call ↔ TopologyCall.Numbered t call := by
  refine ⟨fun hcompleted => ?_, h.completed⟩
  by_contra hm
  obtain ⟨_, hspoiled, hgeneration⟩ := h.run_spoils hm
  rcases hspoiled with ⟨node, u, hget, howns, hvnodes⟩ | hunencodable
  · exact hvnodes (hcompleted.parsed node u hget howns)
  · rcases hcompleted.notified with hbumped | hunmoved
    · omega
    · refine hunencodable (Ring.serial_ok_iff.mp ?_)
      rw [hunmoved.serial]
      exact Ring.serial_ok_iff.mpr h.encodable

theorem topology_updates_completed (calls : List TopologyCall) : (Along run Completed .start calls ↔
      Along run TopologyCall.Numbered .start calls) ∧
    (Along run (fun t call => call.updateError t = none) .start calls ↔
      Along run TopologyCall.Numbered .start calls) := by
  have hstep (t : TopologyManager) (call : TopologyCall) (hm : TopologyCall.Numbered t call)
      (h : ∃ S, Derived S t) : ∃ S, Derived S (call.run t) := by
    obtain ⟨S, h⟩ := h
    exact ⟨_, h.run hm⟩
  have hstart : ∃ S, Derived S .start := ⟨∅, derived_start⟩
  constructor
  · refine along_congr hstep ?_ hstart
    rintro t call ⟨S, h⟩
    exact h.completed_iff call
  · refine along_congr hstep ?_ hstart
    rintro t call ⟨S, h⟩
    exact ⟨fun hnone => not_not.mp fun hm => (h.run_spoils hm).1 hnone, fun hm => (h.returned hm).1⟩

end Failures

namespace Sample

def garbled : Member := ⟨"a", "a:1", 1, .ready, ["zz"]⟩

theorem garbled_member_half_applied : (applyMember garbled .start).1 =
        .error (.valueError "invalid literal for int() with base 16: 'zz'") ∧
      (applyMember garbled .start).2.registry.get "a" = some garbled ∧
      (applyMember garbled .start).2.ring.vnodes = [] ∧ (applyMember garbled .start).2.generation = 0 ∧
      (applyMember garbled (applyMember garbled .start).2).1 =
        .ok false := by
  decide +kernel

def misnumbered : Member := ⟨"b", "b:1", 1, .ready, ["-1"]⟩

theorem numbered_member_applied : Along run Completed .start [.mergeRegistry [first, other, garbled]] ∧
      ¬ Along run Completed .start [.mergeRegistry [first, misnumbered]] := by
  refine ⟨(topology_updates_completed _).1.mpr (by decide +kernel), fun h => ?_⟩
  exact absurd ((topology_updates_completed _).1.mp h) (by decide +kernel)

end Sample

end Tourillon
