import Tourillon.Gossip.Topology
import Tourillon.Library.Machine
import Tourillon.Library.Register

namespace Tourillon

open Prog Register Member Machine List TopologyCall TopologyManager

theorem union_cons (m : Member) (members : List Member) (S : Set Member) :
    {m' | m' ∈ m :: members} ∪ S = {m' | m' ∈ members} ∪ insert m S := by
  ext m'
  simp only [Set.mem_union, Set.mem_ofPred_eq, mem_cons, Set.mem_insert_iff]
  tauto

section Derivation

variable [Digests] {S : Set Member} {t : TopologyManager} {m : Member} {members : List Member}

structure Derived (S : Set Member) (t : TopologyManager) : Prop where
  joined : Joined nodeId epoch S t.registry
  numbered : ∀ node m, t.registry.get node = some m → m.Numbered
  ring : t.ring.vnodes.Perm t.registry.positions
  cached : t.Cached

theorem Derived.vnode (h : Derived S t) {v : VNode} (hv : v ∈ t.ring.vnodes) :
    ∃ m ∈ S, m.Numbered ∧ m.owns = true ∧ v ∈ m.positions := by
  obtain ⟨m, hm, hvm⟩ := mem_flatMap.mp (h.ring.mem_iff.mp hv)
  obtain ⟨hlisted, howns⟩ := mem_filter.mp hm
  obtain ⟨e, he, rfl⟩ := mem_map.mp hlisted
  have hget := OrderedMap.get_eq_some.mpr he
  exact ⟨e.2, (h.joined.sound e.1 e.2 hget).1, h.numbered e.1 e.2 hget, howns, hvm⟩

theorem Derived.encodable (h : Derived S t) : t.ring.Encodable := by
  intro v hv
  obtain ⟨m, _, hnumbered, howns, hvm⟩ := h.vnode hv
  obtain ⟨vs, hvs, hrange⟩ := hnumbered.tokens howns
  rw [positions, hvs] at hvm
  exact hrange v hvm

omit [Digests] in
theorem flatMap_positions_filter (members : List Member) (node : String) :
    (members.flatMap positions).filter (fun v => v.nodeId ∉ [node]) =
      (members.filter fun m => m.nodeId ≠ node).flatMap positions := by
  induction members with
  | nil => rfl
  | cons m members ih =>
    rw [flatMap_cons, filter_append, ih]
    rcases eq_or_ne m.nodeId node with heq | hne
    · have hdrop : m.positions.filter (fun v => v.nodeId ∉ [node]) = [] := by
        rw [filter_eq_nil_iff]
        intro v hv
        simp [nodeId_of_mem_positions hv, heq]
      rw [hdrop, filter_cons_of_neg (by simpa using heq), nil_append]
    · have hkeep : m.positions.filter (fun v => v.nodeId ∉ [node]) = m.positions := by
        rw [filter_eq_self]
        intro v hv
        simp [nodeId_of_mem_positions hv, hne]
      rw [hkeep, filter_cons_of_pos (by simpa using hne), flatMap_cons]

omit [Digests] in
theorem positions_insert {r : MemberRegistry} (hr : ∀ e ∈ r.entries, e.2.nodeId = e.1) :
    (MemberRegistry.positions (r.insert m.nodeId m)).Perm (r.positions.filter (fun v => v.nodeId ∉ [m.nodeId]) ++
        m.seats) := by
  have hsame : r.insert m.nodeId m = (r.erase m.nodeId).insert m.nodeId m := by
    apply OrderedMap.ext_get
    intro k
    simp only [OrderedMap.get_insert, OrderedMap.get_erase]
    split <;> simp_all
  have hnone : (r.erase m.nodeId).get m.nodeId = none := by simp [OrderedMap.get_erase]
  have hperm := OrderedMap.entries_perm_insert (r.erase m.nodeId) m hnone
  have herase : ((r.erase m.nodeId).entries.map Prod.snd).filter owns =
      ((r.entries.map Prod.snd).filter owns).filter fun u => u.nodeId ≠ m.nodeId := by
    have hfilter : (r.erase m.nodeId).entries =
        r.entries.filter fun e => e.2.nodeId ≠ m.nodeId := by
      refine filter_congr ?_
      intro e he
      rw [hr e he]
    rw [hfilter, filter_comm, filter_map, filter_map, filter_map]
    rfl
  have hflat : r.positions.filter (fun v => v.nodeId ∉ [m.nodeId]) =
      MemberRegistry.positions (r.erase m.nodeId) := by
    rw [MemberRegistry.positions, MemberRegistry.positions, herase]
    exact flatMap_positions_filter _ _
  rw [hflat, hsame]
  refine (((hperm.map Prod.snd).filter owns).flatMap_right positions).trans ?_
  rw [map_cons, filter_cons, seats]
  split
  · rw [flatMap_cons]
    exact perm_append_comm
  · rw [append_nil]
    rfl

section

variable (h : Derived S t)

include h

theorem Derived.update (hm : m.Numbered) (hnew : ∀ u ∈ t.registry.get m.nodeId, u.epoch < m.epoch)
    (old : Option Member) : ∃ changed t', updateRing old m
        { t with registry := t.registry.insert m.nodeId m, fingerprint := none } = (.ok changed, t') ∧
      Derived (insert m S) t' := by
  have hpositions := positions_insert (m := m) fun e he =>
    (h.joined.sound e.1 e.2 (OrderedMap.get_eq_some.mpr he)).2
  obtain ⟨ring, hring, hencodable⟩ := h.encodable.derivable_iff.mpr hm
  have hdropped : (t.ring.dropNodes [m.nodeId]).vnodes.Perm
      (t.registry.positions.filter fun v => v.nodeId ∉ [m.nodeId]) := h.ring.filter _
  have hderived : Derived (insert m S)
      { t with registry := t.registry.insert m.nodeId m, fingerprint := none, ring := ring } := by
    refine ⟨h.joined.accept hnew, ?_, ?_, nofun⟩
    · intro node u hu
      rw [OrderedMap.get_insert] at hu
      split at hu
      · cases hu
        exact hm
      · exact h.numbered node u hu
    · exact (derivedRing_perm hring).trans
        ((hdropped.append_right _).trans hpositions.symm)
  obtain ⟨serial, hserial⟩ := Ring.serial_ok_iff.mpr hencodable
  obtain ⟨previous, hprevious⟩ := Ring.serial_ok_iff.mpr h.encodable
  rcases updateRing_cases old m
      { t with registry := t.registry.insert m.nodeId m, fingerprint := none } with
    ⟨e, hfailed, _⟩ | ⟨ring', hring', hrest⟩
  · exact absurd (hring.symm.trans hfailed) nofun
  · cases hring.symm.trans hring'
    rcases hrest with ⟨e, hfailed | hfailed, _⟩ | ⟨changed, _, hrun⟩
    · exact absurd (hserial.symm.trans hfailed) nofun
    · exact absurd (hprevious.symm.trans hfailed) nofun
    · exact ⟨changed, _, hrun, hderived⟩

theorem Derived.apply (hm : t.registry.newer m = true → m.Numbered) :
    ∃ changed t', apply m t = (.ok changed, t') ∧ Derived (insert m S) t' := by
  rcases apply_cases m t with ⟨hnew, hrun⟩ | ⟨⟨u, hget, hle⟩, hrun⟩
  · rw [hrun]
    exact h.update (hm hnew.newer) hnew.above _
  · exact ⟨false, t, hrun, h.joined.refuse hget hle, h.numbered, h.ring, h.cached⟩

theorem Derived.collect (hm : ∀ m ∈ t.registry.accepted members, m.Numbered) :
    ∃ flags t', Prog.collect members TopologyManager.apply t = (.ok flags, t') ∧
      Derived ({m | m ∈ members} ∪ S) t' := by
  induction members generalizing S t with
  | nil => exact ⟨[], t, rfl, by simpa using h⟩
  | cons m members ih =>
    obtain ⟨hfirst, hlater⟩ := MemberRegistry.forall_accepted_cons.mp hm
    obtain ⟨changed, t₁, hrun, h₁⟩ := h.apply hfirst
    have hregistry := TopologyManager.apply_registry m t
    rw [hrun] at hregistry
    rw [← hregistry] at hlater
    obtain ⟨flags, t₂, hrest, h₂⟩ := ih h₁ hlater
    refine ⟨changed :: flags, t₂, ?_, ?_⟩
    · rw [Prog.collect, bind_ok hrun, bind_ok hrest]
      rfl
    · rw [union_cons]
      exact h₂

theorem Derived.bump (p : Prop) [Decidable p] : Derived S (whenever p notify t).2 := by
  unfold whenever
  split
  · exact ⟨h.joined, h.numbered, h.ring, h.cached⟩
  · exact h

theorem Derived.fingerprinted : Derived S (TopologyManager.memberFingerprint t).2 := by
  have hcached := cached_invariant.memberFingerprint h.cached
  unfold TopologyManager.memberFingerprint at hcached ⊢
  rw [bind_ok (rfl : get t = (.ok t, t))] at hcached ⊢
  cases hcache : t.fingerprint with
  | some found => exact h
  | none =>
    rw [hcache] at hcached
    cases hcompute : TopologyManager.computeFingerprint t.registry with
    | error e => exact h
    | ok found =>
      rw [hcompute] at hcached
      exact ⟨h.joined, h.numbered, h.ring, hcached⟩

theorem Derived.run {call : TopologyCall} (hm : TopologyCall.Numbered t call) :
    Derived ({m | m ∈ call.records} ∪ S) (call.run t) := by
  cases call with
  | applyMember m =>
    obtain ⟨changed, t', hrun, h'⟩ := h.apply (MemberRegistry.forall_accepted_cons.mp hm).1
    have hset : {m' | m' ∈ (TopologyCall.applyMember m).records} ∪ S = insert m S := by
      ext m'
      simp [TopologyCall.records]
    have hcall : (TopologyCall.applyMember m).run t =
        (whenever (changed = true) TopologyManager.notify t').2 := by
      rw [TopologyCall.run, TopologyManager.applyMember, bind_ok hrun]
      unfold whenever
      split <;> rfl
    rw [hset, hcall]
    exact h'.bump _
  | mergeRegistry members =>
    change ∀ m ∈ t.registry.accepted members, m.Numbered at hm
    obtain ⟨flags, t', hrun, h'⟩ := h.collect hm
    have hcall : (TopologyCall.mergeRegistry members).run t =
        (whenever (flags.count true ≠ 0) TopologyManager.notify t').2 := by
      rw [TopologyCall.run, TopologyManager.mergeRegistry, bind_ok hrun]
      unfold whenever
      split <;> rfl
    rw [hcall]
    exact h'.bump _
  | memberFingerprint =>
    have hset : {m' | m' ∈ TopologyCall.memberFingerprint.records} ∪ S = S := by
      ext m'
      simp [TopologyCall.records]
    rw [hset]
    exact h.fingerprinted

end

theorem derived_start : Derived ∅ .start where
  joined := joined_empty
  numbered := nofun
  ring := List.Perm.refl _
  cached := nofun

omit [Digests] in
theorem TopologyCall.given_append (calls calls' : List TopologyCall) :
    given (calls ++ calls') = given calls ∪ given calls' := by
  ext m
  simp [given, or_and_right, exists_or]

theorem derived_runAll {calls : List TopologyCall} (hm : Along run TopologyCall.Numbered .start calls) :
    Derived (given calls) (runAll calls) := by
  induction calls using reverseRecOn with
  | nil =>
    have hset : given [] = ∅ := by
      ext m
      simp [given]
    rw [hset]
    exact derived_start
  | append_singleton calls call ih =>
    have hset : given (calls ++ [call]) =
        {m | m ∈ call.records} ∪ given calls := by
      ext m
      simp [given, or_comm]
    obtain ⟨hbefore, hcall, _⟩ := along_append.mp hm
    rw [hset, runAll, foldl_append]
    exact (ih hbefore).run hcall

theorem TopologyCall.along_numbered {calls : List TopologyCall}
    (h : ∀ m ∈ given calls, m.Numbered) (t : TopologyManager) : Along run TopologyCall.Numbered t calls := by
  induction calls generalizing t with
  | nil => trivial
  | cons call calls ih =>
    refine ⟨fun m hm => h m ⟨call, mem_cons_self, MemberRegistry.mem_of_accepted hm⟩, ?_⟩
    refine ih (fun m hm => ?_) _
    obtain ⟨call', hcall', hm'⟩ := hm
    exact h m ⟨call', mem_cons_of_mem _ hcall', hm'⟩

end Derivation

end Tourillon
