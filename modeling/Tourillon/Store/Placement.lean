import Tourillon.AntiEntropy.View
import Tourillon.Gossip.Topology

namespace Tourillon

open Endian Exceptional Prog List

structure HashSpace where
  bits : Nat
  hash : Bytes → Nat

namespace HashSpace

def max (s : HashSpace) : Nat := 1 <<< s.bits

end HashSpace

namespace Partitioner

variable (p : Partitioner) (s : HashSpace)

def pidForHash (h : Nat) : Nat := h >>> (s.bits - p.pshift)

def partitionStep : Nat := s.max >>> p.pshift

def partitionEnd (pid : Nat) : Nat := ((pid + 1) * p.partitionStep s) % s.max

end Partitioner

structure Topology where
  ring : Ring
  registry : MemberRegistry
  keyed : registry.Keyed

section Snapshot

variable [Digests]

def TopologyManager.snapshot (calls : List TopologyCall) : Topology where
  ring := (TopologyCall.runAll calls).ring
  registry := (TopologyCall.runAll calls).registry
  keyed := keyed_runAll calls

end Snapshot

structure Preference where
  nodeId : String
  readable : Bool
  handoff : Option String
  writable : Bool
  deriving DecidableEq, Repr

structure PartitionPlacement where
  pid : Nat
  group : Nat
  vnode : VNode
  deriving DecidableEq, Repr

structure PreferenceList where
  placement : PartitionPlacement
  preferences : List Preference
  deriving DecidableEq, Repr

def excludedPhases : List MemberPhase := [.idle, .failed]

def alwaysHandoffPhases : List MemberPhase := [.joining, .draining, .paused]

structure SimplePlacementStrategy where
  rf : Nat
  partitioner : Partitioner
  space : HashSpace

namespace Topology

def owners (t : Topology) (rf : Nat) : List VNode → List Member → VNode → List Member × VNode
  | [], members, last => (members, last)
  | v :: vs, members, last =>
    match t.registry.get v.nodeId with
    | none => t.owners rf vs members last
    | some m =>
      if m.phase ∈ excludedPhases then t.owners rf vs members last
      else
        let fresh := m.nodeId ∉ members.map fun x => x.nodeId
        let members := if fresh then members ++ [m] else members
        let last := if fresh then v else last
        if members.length = rf then (members, last) else t.owners rf vs members last

def handoffCandidates (t : Topology) (alive : String → Bool) : List VNode → List String → List String
  | [], _ => []
  | v :: vs, seen =>
    match t.registry.get v.nodeId with
    | none => t.handoffCandidates alive vs seen
    | some m =>
      if m.phase ≠ .ready then t.handoffCandidates alive vs seen
      else if m.nodeId ∈ seen then t.handoffCandidates alive vs seen
      else if !alive m.nodeId then t.handoffCandidates alive vs seen
      else v.nodeId :: t.handoffCandidates alive vs (v.nodeId :: seen)

end Topology

def Member.needsHandoff (m : Member) (alive : String → Bool) : Bool :=
  m.phase ∈ alwaysHandoffPhases || (m.phase = .ready && !alive m.nodeId)

def assignHandoffs (alive : String → Bool) : List Member → List String → List Preference
  | [], _ => []
  | m :: members, candidates =>
    let entry (handoff : Option String) : Preference :=
      ⟨m.nodeId, m.phase = .ready || m.phase = .draining, handoff, m.phase = .ready⟩
    if m.needsHandoff alive then
      entry candidates.head? :: assignHandoffs alive members candidates.tail
    else entry none :: assignHandoffs alive members candidates

namespace SimplePlacementStrategy

def placementAddr (s : SimplePlacementStrategy) (addr : Address) (ring : Ring) :
    Except PyError PartitionPlacement := do
  let encoded ← addr.toBytes
  let pid := s.partitioner.pidForHash s.space (s.space.hash encoded)
  let vnode ← ring.successor (s.partitioner.partitionEnd s.space pid)
  return ⟨pid, s.partitioner.groupFor pid, vnode⟩

def preferenceList (s : SimplePlacementStrategy) (t : Topology) (alive : String → Bool)
    (addr : Address) : Except PyError PreferenceList := do
  let placement ← s.placementAddr addr t.ring
  let (members, last) := t.owners s.rf (t.ring.iterFrom placement.vnode) [] placement.vnode
  let candidates := t.handoffCandidates alive (t.ring.iterFrom last) (members.map fun m => m.nodeId)
  return ⟨placement, assignHandoffs alive members candidates⟩

end SimplePlacementStrategy

theorem Topology.owners_nodup (t : Topology) (rf : Nat) (vs : List VNode) (members : List Member)
    (last : VNode) (h : (members.map fun m => m.nodeId).Nodup) :
    ((t.owners rf vs members last).1.map fun m => m.nodeId).Nodup := by
  induction vs generalizing members last with
  | nil => exact h
  | cons v vs ih =>
    unfold Topology.owners
    split
    · exact ih members last h
    · rename_i m hm
      split
      · exact ih members last h
      · dsimp only
        split
        · rename_i hfresh
          have hnext : ((members ++ [m]).map fun x => x.nodeId).Nodup := by
            rw [map_append, map_singleton, ← concat_eq_append]
            exact h.concat hfresh
          split
          · exact hnext
          · exact ih _ v hnext
        · split
          · exact h
          · exact ih members last h

theorem Topology.handoffCandidates_spec (t : Topology) (alive : String → Bool) (vs : List VNode)
    (seen : List String) :
    (t.handoffCandidates alive vs seen).Nodup ∧ ∀ id ∈ t.handoffCandidates alive vs seen, id ∉ seen := by
  induction vs generalizing seen with
  | nil => exact ⟨nodup_nil, nofun⟩
  | cons v vs ih =>
    unfold Topology.handoffCandidates
    split
    · exact ih seen
    · rename_i m hm
      have hid : m.nodeId = v.nodeId := t.keyed _ _ hm
      split
      · exact ih seen
      · split
        · exact ih seen
        · rename_i hfresh
          split
          · exact ih seen
          · obtain ⟨hnodup, hnot⟩ := ih (v.nodeId :: seen)
            refine ⟨nodup_cons.mpr ⟨?_, hnodup⟩, ?_⟩
            · intro hin
              exact hnot _ hin mem_cons_self
            · intro id hin hseen
              rcases mem_cons.mp hin with rfl | hin
              · exact hfresh (hid ▸ hseen)
              · exact hnot id hin (mem_cons_of_mem _ hseen)

theorem assignHandoffs_owners (alive : String → Bool) (members : List Member) (candidates : List String) :
    (assignHandoffs alive members candidates).map (fun e => e.nodeId) = members.map fun m => m.nodeId := by
  induction members generalizing candidates with
  | nil => rfl
  | cons m members ih =>
    unfold assignHandoffs
    split
    · simp only [map_cons, ih]
    · simp only [map_cons, ih]

theorem assignHandoffs_handoffs (alive : String → Bool) (members : List Member) (candidates : List String) :
    ((assignHandoffs alive members candidates).flatMap fun e => e.handoff.toList).Sublist
      candidates := by
  induction members generalizing candidates with
  | nil => exact nil_sublist _
  | cons m members ih =>
    unfold assignHandoffs
    split
    · cases candidates with
      | nil => exact ih []
      | cons c rest =>
        simp only [flatMap_cons, head?_cons, Option.toList_some, singleton_append, tail_cons]
        exact (ih rest).cons_cons c
    · simpa using ih candidates

structure WellPlaced (preferences : List Preference) : Prop where
  owners : (preferences.map fun e => e.nodeId).Nodup
  handoffs : (preferences.flatMap fun e => e.handoff.toList).Nodup
  apart : ∀ e ∈ preferences, ∀ e' ∈ preferences, ∀ h ∈ e'.handoff, h ≠ e.nodeId

theorem SimplePlacementStrategy.wellPlaced {s : SimplePlacementStrategy} {t : Topology}
    {alive : String → Bool} {addr : Address} {list : PreferenceList}
    (h : s.preferenceList t alive addr = .ok list) : WellPlaced list.preferences := by
  simp only [preferenceList, bind_eq_ok, pure_eq_ok] at h
  obtain ⟨placement, _, rfl⟩ := h
  dsimp only
  have howners := t.owners_nodup s.rf (t.ring.iterFrom placement.vnode) [] placement.vnode (by simp)
  generalize t.owners s.rf (t.ring.iterFrom placement.vnode) [] placement.vnode = found at howners ⊢
  obtain ⟨members, last⟩ := found
  obtain ⟨hnodup, hfresh⟩ := t.handoffCandidates_spec alive (t.ring.iterFrom last)
    (members.map fun m => m.nodeId)
  have hsub := assignHandoffs_handoffs alive members
    (t.handoffCandidates alive (t.ring.iterFrom last) (members.map fun m => m.nodeId))
  refine ⟨?_, hnodup.sublist hsub, ?_⟩
  · rw [assignHandoffs_owners]
    exact howners
  · intro e he e' he' id hid heq
    refine hfresh id (hsub.subset (mem_flatMap.mpr ⟨e', he', by simpa using hid⟩)) ?_
    rw [← assignHandoffs_owners alive members, heq]
    exact mem_map_of_mem he

end Tourillon
