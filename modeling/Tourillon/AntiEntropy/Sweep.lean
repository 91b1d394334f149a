import Tourillon.AntiEntropy.Drain
import Tourillon.AntiEntropy.Orphans

namespace Tourillon

open Sequence List SweepUnit

section Units

variable {total n : Nat} {u : SweepUnit} {pid : Nat}

theorem SweepUnit.mem_span : pid ∈ u.span ↔ u.lo ≤ pid ∧ pid < u.hi := by
  rw [span, mem_range'_1]
  omega

theorem handoffUnits_index (hu : u ∈ handoffUnits total n) (hlo : u.lo ≤ pid) (hhi : pid < u.hi) :
    u = { peer := none, lo := pid / n * n, hi := min (pid / n * n + n) total } := by
  obtain ⟨i, _, rfl⟩ := mem_map.mp hu
  dsimp only at hlo hhi ⊢
  have hi : pid / n = i := by
    apply Nat.div_eq_of_lt_le
    · exact hlo
    · rw [Nat.succ_mul]
      omega
  rw [hi]

theorem exists_handoffUnit (hn : 1 ≤ n) (hpid : pid < total) :
    ∃ u ∈ handoffUnits total n, u.lo ≤ pid ∧ pid < u.hi := by
  have hmem : pid ∈ (handoffUnits total n).flatMap span := by
    rw [spans_partition hn]
    exact mem_range.mpr hpid
  obtain ⟨u, hu, hspan⟩ := mem_flatMap.mp hmem
  exact ⟨u, hu, mem_span.mp hspan⟩

theorem replicaUnits_pids (hn : 1 ≤ n) (peer : String) (pids : List Nat) :
    (replicaUnits n peer pids).flatMap SweepUnit.pids = pids := by
  rw [replicaUnits, flatMap_map]
  exact flatMap_id'.trans (chunks_flatten hn pids)

theorem replicaUnits_ne_nil (hn : 1 ≤ n) (peer : String) {pids : List Nat} (h : pids ≠ []) :
    replicaUnits n peer pids ≠ [] := by
  intro hnil
  have hpids := replicaUnits_pids hn peer pids
  rw [hnil] at hpids
  exact h hpids.symm

theorem length_of_mem_plan [Blake2b] {view : ReplicaView} (hu : u ∈ plan view total n) : u.pids.length ≤ n := by
  rcases mem_append.mp hu with hu | hu
  · obtain ⟨e, _, hu⟩ := mem_flatMap.mp hu
    split at hu
    · obtain ⟨slice, hslice, rfl⟩ := mem_map.mp hu
      exact length_of_mem_chunks e.2 slice hslice
    · cases hu
  · obtain ⟨i, _, rfl⟩ := mem_map.mp hu
    exact Nat.zero_le n

end Units

structure SweepPartition [Blake2b] (va vb : ReplicaView) (total n : Nat) : Prop where
  shared : ∀ pid, (pid ∈ va.sharedWith vb.nodeId ↔ pid ∈ vb.sharedWith va.nodeId) ∧
    (pid ∈ va.sharedWith vb.nodeId ↔ va.isReplica pid va.nodeId = true ∧ vb.isReplica pid vb.nodeId = true)
  initiator : va.sharedWith vb.nodeId ≠ [] →
    (pairUnits (plan va total n) vb.nodeId ≠ [] ↔ pairUnits (plan vb total n) va.nodeId = [])
  pairs : (pairUnits (plan va total n) vb.nodeId ++
    pairUnits (plan vb total n) va.nodeId).flatMap pids = va.sharedWith vb.nodeId
  once : (va.sharedWith vb.nodeId).Nodup
  bounded : ∀ u ∈ plan va total n ++ plan vb total n, u.pids.length ≤ n
  spans : ∀ view ∈ [va, vb], (spanUnits (plan view total n)).flatMap span = range total

structure OrphanVisited [Blake2b] (c : Cluster) (sv : Service) (view : ReplicaView) (u : SweepUnit)
    (pid : Nat) : Prop where
  visited : ∀ w, Resident c sv.node pid w.shared → Visits c sv.node view u pid w
  marked : ∀ w marks w', Resident c sv.node pid w.shared → sv.orphans c u view w = (.ok marks, w') →
    view.replicasOf pid ≠ [] → w'.shared.handed.lookup pid = none → pid ∈ marks.map Prod.fst

structure OrphanPassed [Blake2b] (c : Cluster) (sv : Service) (view : ReplicaView) (u : SweepUnit)
    (pid : Nat) : Prop where
  unvisited : ∀ w, Resident c sv.node pid w.shared → ¬ Visits c sv.node view u pid w
  unmarked : ∀ w marks w', Resident c sv.node pid w.shared → sv.orphans c u view w = (.ok marks, w') →
    pid ∉ marks.map Prod.fst

section Sweep

variable [Blake2b]

theorem orphan_visited_once {c : Cluster} {sv : Service} {view : ReplicaView} {n pid : Nat} (hn : 1 ≤ n)
    (hfuel : 2 * c.partitioner.totalGroups + 1 < c.fuel) (hpid : pid < c.partitioner.totalPartitions)
    (henv : Residing c sv.node pid) (horphan : view.isReplica pid view.nodeId = false) :
    ∃ u ∈ spanUnits (plan view c.partitioner.totalPartitions n), OrphanVisited c sv view u pid ∧
      ∀ u' ∈ spanUnits (plan view c.partitioner.totalPartitions n), u' ≠ u → OrphanPassed c sv view u' pid := by
  obtain ⟨u, hu, hlo, hhi⟩ := exists_handoffUnit hn hpid
  rw [spanUnits_plan]
  have hvisit (w : World) (hw : Resident c sv.node pid w.shared) : Visits c sv.node view u pid w :=
    visits_of_mem henv hlo hhi hpid hfuel horphan hw
  refine ⟨u, hu, ⟨hvisit, ?_⟩, ?_⟩
  · intro w marks w' hw hrun hpeers hfresh
    exact marked_of_visits (hvisit w hw) hrun hpeers hfresh
  · intro u' hu' hne
    have hapart (hlo' : u'.lo ≤ pid) (hhi' : pid < u'.hi) : False :=
      hne ((handoffUnits_index hu' hlo' hhi').trans (handoffUnits_index hu hlo hhi).symm)
    refine ⟨?_, ?_⟩
    · intro w hw hvisit'
      obtain ⟨hlo', hhi'⟩ := range_of_visits henv hw hvisit'
      exact hapart hlo' hhi'
    · intro w marks w' hw hrun hmarked
      obtain ⟨hlo', hhi'⟩ := range_of_marked henv hw hrun hmarked
      exact hapart hlo' hhi'

theorem sweepPartition_views (t : Topology) (serial : String) (p : Partitioner) (space : HashSpace)
    (rf : Nat) {a b : String} (hne : a ≠ b) {n : Nat} (hn : 1 ≤ n) :
    SweepPartition (buildView t serial p space rf a) (buildView t serial p space rf b) p.totalPartitions n := by
  have hshared : (buildView t serial p space rf b).sharedWith a =
      (buildView t serial p space rf a).sharedWith b := by
    rw [sharedWith_buildView _ _ _ _ _ hne, sharedWith_buildView _ _ _ _ _ hne.symm]
    simp only [and_comm]
  have hpair_a := pairUnits_plan (nodup_shared t serial p space rf a) p.totalPartitions n b
  have hpair_b := pairUnits_plan (nodup_shared t serial p space rf b) p.totalPartitions n a
  rw [nodeId_buildView] at hpair_a hpair_b
  rw [hshared] at hpair_b
  have hswap := initiates_swap hne
  refine ⟨?_, ?_, ?_, ?_, ?_, ?_⟩
  · intro pid
    rw [nodeId_buildView, nodeId_buildView, hshared]
    refine ⟨Iff.rfl, ?_⟩
    rw [isReplica_buildView, isReplica_buildView, sharedWith_buildView _ _ _ _ _ hne.symm,
      mem_filter, mem_range, decide_eq_true_iff]
    tauto
  · rw [nodeId_buildView, nodeId_buildView, hpair_a, hpair_b]
    intro hsome
    cases hinit : initiates b a with
    | true =>
      rw [hswap, hinit]
      exact iff_of_false (fun h => h rfl) (replicaUnits_ne_nil hn a hsome)
    | false =>
      rw [hswap, hinit]
      exact iff_of_true (replicaUnits_ne_nil hn b hsome) rfl
  · rw [nodeId_buildView, nodeId_buildView, hpair_a, hpair_b, flatMap_append]
    cases hinit : initiates b a with
    | true =>
      rw [hswap, hinit]
      exact replicaUnits_pids hn a _
    | false =>
      rw [hswap, hinit]
      exact (append_nil _).trans (replicaUnits_pids hn b _)
  · rw [nodeId_buildView, sharedWith_buildView _ _ _ _ _ hne.symm]
    exact nodup_range.filter _
  · intro u hu
    rcases mem_append.mp hu with hu | hu
    · exact length_of_mem_plan hu
    · exact length_of_mem_plan hu
  · intro view _
    rw [spanUnits_plan, spans_partition hn]

theorem pairs_swept_once (t : Topology) (serial : String) (space : HashSpace) (rf : Nat) (c : Cluster)
    {a b : String} (hne : a ≠ b) {n : Nat} (hn : 1 ≤ n) :
    SweepPartition (buildView t serial c.partitioner space rf a)
      (buildView t serial c.partitioner space rf b) c.partitioner.totalPartitions n ∧
    ∀ sv : Service, 2 * c.partitioner.totalGroups + 1 < c.fuel →
      ∀ pid < c.partitioner.totalPartitions, Residing c sv.node pid →
        (buildView t serial c.partitioner space rf sv.node).isReplica pid sv.node = false →
        ∃ u ∈ spanUnits (plan (buildView t serial c.partitioner space rf sv.node) c.partitioner.totalPartitions n),
          OrphanVisited c sv (buildView t serial c.partitioner space rf sv.node) u pid ∧
          ∀ u' ∈ spanUnits (plan (buildView t serial c.partitioner space rf sv.node)
              c.partitioner.totalPartitions n), u' ≠ u →
            OrphanPassed c sv (buildView t serial c.partitioner space rf sv.node) u' pid := by
  refine ⟨sweepPartition_views t serial c.partitioner space rf hne hn, ?_⟩
  intro sv hfuel pid hpid henv horphan
  refine orphan_visited_once hn hfuel hpid henv ?_
  rw [nodeId_buildView]
  exact horphan

end Sweep

namespace Sample

def outpost : Member := ⟨"b", "b:1", 1, .ready, ["05"]⟩

def outposts : Topology where
  ring := .make [⟨5, "b"⟩]
  registry := OrderedMap.insert ∅ outpost.nodeId outpost
  keyed := MemberRegistry.Keyed.insert (r := (∅ : MemberRegistry)) nofun outpost

def leftover : ReplicaView := buildView outposts "ring" (cluster (still 9)).partitioner ⟨8, fun _ => 0⟩ 1 "a"

theorem leftover_resident : Resident (cluster (still 9)) "a" 0 (only ["b"] "a" 5).shared where
  good := only_good _ _ (by decide) _ "a"
  stored := ⟨(version 5).key, by decide +kernel, rfl⟩

theorem leftover_visited_once :
    ∃ u ∈ spanUnits (plan leftover 2 1), Visits (cluster (still 9)) "a" leftover u 0 (only ["b"] "a" 5) ∧
      ∀ u' ∈ spanUnits (plan leftover 2 1), u' ≠ u →
        ¬ Visits (cluster (still 9)) "a" leftover u' 0 (only ["b"] "a" 5) := by
  obtain ⟨u, hu, hvisited, hpassed⟩ := (pairs_swept_once outposts "ring" ⟨8, fun _ => 0⟩ 1
    (cluster (still 9)) (by decide : "a" ≠ "b") (Nat.le_refl 1)).2 (service "a") (by decide) 0 (by decide)
    (fun _ _ h => h) (by decide +kernel)
  exact ⟨u, hu, hvisited.visited _ leftover_resident,
    fun u' hu' hne => (hpassed u' hu' hne).unvisited _ leftover_resident⟩

end Sample

end Tourillon
