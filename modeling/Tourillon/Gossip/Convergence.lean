import Tourillon.Gossip.Derivation

namespace Tourillon

open Exceptional Prog TopologyCall

structure ValidRecords (S : Set Member) : Prop where
  epochs : ∀ m ∈ S, ∀ m' ∈ S, m.nodeId = m'.nodeId → m.epoch = m'.epoch → m = m'
  tokens : ∀ m ∈ S, ∃ vs, m.vnodes = .ok vs ∧ ∀ v ∈ vs, 0 ≤ v.token ∧ v.token < 256 ^ 16
  distinct : ∀ m ∈ S, ∀ m' ∈ S, m.nodeId ≠ m'.nodeId → ∀ v ∈ m.positions, ∀ v' ∈ m'.positions,
    v.token ≠ v'.token

theorem ValidRecords.mono {S V : Set Member} (h : ValidRecords V) (hsub : S ⊆ V) : ValidRecords S where
  epochs m hm m' hm' := h.epochs m (hsub hm) m' (hsub hm')
  tokens m hm := h.tokens m (hsub hm)
  distinct m hm m' hm' := h.distinct m (hsub hm) m' (hsub hm')

section Agreement

variable [Digests] {S : Set Member} {t : TopologyManager}

theorem Derived.ring_eq (hV : ValidRecords S) (h : Derived S t) : t.ring = t.registry.ring := by
  have hperm : t.ring.vnodes.Perm t.registry.ring.vnodes :=
    h.ring.trans (List.perm_insertionSort VNode.Before t.registry.positions).symm
  refine Ring.eq_of_vnodes (hperm.eq_of_pairwise ?_ t.ring.sorted t.registry.ring.sorted)
  intro a b ha hb hab hba
  have htoken : a.token = b.token := Int.le_antisymm hab hba
  obtain ⟨m, hm, _, _, ham⟩ := h.vnode ha
  obtain ⟨m', hm', _, _, hbm⟩ := h.vnode (hperm.mem_iff.mpr hb)
  have hnode : m.nodeId = m'.nodeId := by
    by_contra hne
    exact hV.distinct m hm m' hm' hne a ham b hbm htoken
  have ha' := Member.nodeId_of_mem_positions ham
  have hb' := Member.nodeId_of_mem_positions hbm
  cases a
  cases b
  simp_all

theorem ValidRecords.derived {calls : List TopologyCall} (h : ValidRecords (given calls)) :
    Derived (given calls) (runAll calls) :=
  derived_runAll (along_numbered (fun m hm => ⟨fun _ => h.tokens m hm⟩) .start)

end Agreement

structure Converged [Digests] (S : Set Member) (calls : List TopologyCall) : Prop where
  newest : ∀ m ∈ S, ∃ u ∈ S, (runAll calls).registry.get m.nodeId = some u ∧
    u.nodeId = m.nodeId ∧ ∀ m' ∈ S, m'.nodeId = m.nodeId → m'.epoch ≤ u.epoch
  known : ∀ node u, (runAll calls).registry.get node = some u → u ∈ S
  rising : ∀ before mid after, calls = before ++ mid ++ after → ∀ node u,
    (runAll before).registry.get node = some u →
      ∃ u', (runAll (before ++ mid)).registry.get node = some u' ∧ u.epoch ≤ u'.epoch
  derived : ∀ before after, calls = before ++ after →
    (runAll before).ring = (runAll before).registry.ring

theorem converged [Digests] {calls : List TopologyCall}
    (hV : ValidRecords (given calls)) : Converged (given calls) calls := by
  have hall := hV.derived
  have hpart {before after : List TopologyCall} (h : calls = before ++ after) :
      ValidRecords (given before) := by
    apply hV.mono
    rw [h, given_append]
    exact Set.subset_union_left
  refine ⟨?_, fun node u hu => (hall.joined.sound node u hu).1, ?_, ?_⟩
  · intro m hm
    obtain ⟨u, hu, _⟩ := hall.joined.greatest m hm
    obtain ⟨hin, hnode⟩ := hall.joined.sound _ u hu
    refine ⟨u, hin, hu, hnode, ?_⟩
    intro m' hm' hsame
    obtain ⟨u', hu', hle⟩ := hall.joined.greatest m' hm'
    rw [hsame, hu] at hu'
    cases hu'
    exact hle
  · intro before mid after h node u hu
    have hlate := (hpart h).derived
    rw [List.append_assoc] at h
    refine (hpart h).derived.joined.rank_le hlate.joined ?_ hu
    rw [given_append]
    exact Set.subset_union_left
  · intro before after h
    exact (hpart h).derived.ring_eq (hpart h)

theorem membership_merge_is_join [Digests] {calls calls' : List TopologyCall} (hsame : given calls = given calls')
    (hvalid : ValidRecords (given calls)) : (runAll calls).registry = (runAll calls').registry ∧
    (runAll calls).ring = (runAll calls').ring ∧ (runAll calls).ring.serial = (runAll calls').ring.serial ∧
    (TopologyManager.memberFingerprint (runAll calls)).1 = (TopologyManager.memberFingerprint (runAll calls')).1 ∧
    Converged (given calls) calls := by
  have h := hvalid.derived
  have hvalid' : ValidRecords (given calls') := hsame ▸ hvalid
  have h' := hvalid'.derived
  have hregistry := h.joined.unique (hsame ▸ h'.joined) hvalid.epochs
  have hring : (runAll calls).ring = (runAll calls').ring := by
    rw [h.ring_eq hvalid, h'.ring_eq hvalid', hregistry]
  refine ⟨hregistry, hring, by rw [hring], ?_, converged hvalid⟩
  rw [h.cached.memberFingerprint, h'.cached.memberFingerprint, hregistry]

namespace Sample

theorem mem_given_members {m : Member} (h : m ∈ given [.applyMember first, .mergeRegistry [other, second]]) :
    m = first ∨ m = second ∨ m = other := by
  simp only [given, records, Set.mem_ofPred_eq, List.mem_cons,
    List.not_mem_nil, or_false, exists_eq_or_imp, exists_eq_left] at h
  tauto

theorem members_valid : ValidRecords (given [.applyMember first, .mergeRegistry [other, second]]) := by
  have hcheck : ∀ m ∈ [first, second, other], (∀ m' ∈ [first, second, other],
      (m.nodeId = m'.nodeId → m.epoch = m'.epoch → m = m') ∧
      (m.nodeId ≠ m'.nodeId → ∀ v ∈ m.positions, ∀ v' ∈ m'.positions, v.token ≠ v'.token)) ∧
      ∃ vs ∈ m.vnodes.toOption, ∀ v ∈ vs, 0 ≤ v.token ∧ v.token < 256 ^ 16 := by
    decide +kernel
  have hmem {m : Member}
      (h : m ∈ given [.applyMember first, .mergeRegistry [other, second]]) :
      m ∈ [first, second, other] := by simpa using mem_given_members h
  refine ⟨?_, ?_, ?_⟩
  · intro m hm m' hm'
    exact ((hcheck m (hmem hm)).1 m' (hmem hm')).1
  · intro m hm
    obtain ⟨vs, hvs, hlt⟩ := (hcheck m (hmem hm)).2
    exact ⟨vs, mem_toOption.mp hvs, hlt⟩
  · intro m hm m' hm'
    exact ((hcheck m (hmem hm)).1 m' (hmem hm')).2

theorem members_merge : (runAll [.applyMember first, .mergeRegistry [other, second]]).ring =
      (runAll [.applyMember second, .applyMember other, .memberFingerprint,
        .mergeRegistry [first, second]]).ring := by
  have hsame : given [.applyMember first, .mergeRegistry [other, second]] =
      given [.applyMember second, .applyMember other, .memberFingerprint,
        .mergeRegistry [first, second]] := by
    ext m
    simp only [given, records, Set.mem_ofPred_eq, List.mem_cons,
      List.not_mem_nil, or_false, exists_eq_or_imp, exists_eq_left]
    tauto
  exact (membership_merge_is_join hsame members_valid).2.1

end Sample

end Tourillon
