import Tourillon.AntiEntropy.BuildView
import Tourillon.AntiEntropy.Service

namespace Tourillon

open Sequence List ReplicaView

def initiates [Blake2b] (node peer : String) : Bool :=
  let low := if node ≤ peer then node else peer
  let high := if node ≤ peer then peer else node
  decide (node = low) == decide (Blake2b.digest1 (encodeUtf8 low ++ 0 :: encodeUtf8 high) &&& 1 = 0)

def replicaUnits (pidsPerCycle : Nat) (peer : String) (pids : List Nat) : List SweepUnit :=
  (chunks pidsPerCycle pids).map fun slice => { peer := some peer, pids := slice }

def handoffUnits (total pidsPerCycle : Nat) : List SweepUnit :=
  (range ((total + pidsPerCycle - 1) / pidsPerCycle)).map fun i =>
    { peer := none, lo := i * pidsPerCycle, hi := min (i * pidsPerCycle + pidsPerCycle) total }

def plan [Blake2b] (view : ReplicaView) (total pidsPerCycle : Nat) : List SweepUnit :=
  ((view.shared.insertionSort fun a b => a.1 ≤ b.1).flatMap fun e =>
    if initiates view.nodeId e.1 then replicaUnits pidsPerCycle e.1 e.2 else []) ++
    handoffUnits total pidsPerCycle

def ReplicaView.sharedWith (view : ReplicaView) (peer : String) : List Nat :=
  (view.shared.lookup peer).getD []

def pairUnits (units : List SweepUnit) (peer : String) : List SweepUnit :=
  units.filter fun u => u.peer = some peer

def spanUnits (units : List SweepUnit) : List SweepUnit := units.filter fun u => u.peer = none

theorem initiates_swap [Blake2b] {a b : String} (h : a ≠ b) : initiates a b = !initiates b a := by
  unfold initiates
  rcases lt_or_gt_of_ne h with hlt | hlt
  · simp only [hlt.le, not_le.mpr hlt, if_true, if_false, decide_true, h.symm, decide_false]
    cases decide (Blake2b.digest1 (encodeUtf8 a ++ 0 :: encodeUtf8 b) &&& 1 = 0) <;> rfl
  · simp only [hlt.le, not_le.mpr hlt, if_true, if_false, decide_true, h, decide_false]
    cases decide (Blake2b.digest1 (encodeUtf8 b ++ 0 :: encodeUtf8 a) &&& 1 = 0) <;> rfl

theorem pairUnits_replicaUnits (n : Nat) (peer other : String) (pids : List Nat) :
    pairUnits (replicaUnits n other pids) peer =
      if other = peer then replicaUnits n peer pids else [] := by
  unfold pairUnits replicaUnits
  rw [filter_map]
  split
  · rename_i heq
    subst heq
    rw [filter_eq_self.mpr (by simp)]
  · rename_i hne
    rw [filter_eq_nil_iff.mpr (by simp [hne]), map_nil]

theorem pairUnits_plan [Blake2b] {view : ReplicaView} (hkeys : (view.shared.map Prod.fst).Nodup)
    (total n : Nat) (peer : String) : pairUnits (plan view total n) peer =
      if initiates view.nodeId peer then replicaUnits n peer (view.sharedWith peer) else [] := by
  have hspans : pairUnits (handoffUnits total n) peer = [] := by
    rw [pairUnits, handoffUnits, filter_map, filter_eq_nil_iff.mpr (by simp), map_nil]
  have hperm : (view.shared.insertionSort fun a b => a.1 ≤ b.1).Perm view.shared := perm_insertionSort _ _
  have hsorted := (hperm.map Prod.fst).nodup_iff.mpr hkeys
  have hunits (e : String × List Nat) :
      (if initiates view.nodeId e.1 then replicaUnits n e.1 e.2 else []).filter
          (fun u => u.peer = some peer) =
        if e.1 = peer then (if initiates view.nodeId peer then replicaUnits n peer e.2 else []) else [] := by
    by_cases hpeer : e.1 = peer
    · subst hpeer
      rw [if_pos rfl]
      split
      · exact (pairUnits_replicaUnits n e.1 e.1 e.2).trans (if_pos rfl)
      · rfl
    · rw [if_neg hpeer]
      split
      · exact (pairUnits_replicaUnits n peer e.1 e.2).trans (if_neg hpeer)
      · rfl
  rw [plan, pairUnits, filter_append, filter_flatMap]
  simp only [hunits]
  rw [flatMap_at_key hsorted peer fun pids =>
      if initiates view.nodeId peer then replicaUnits n peer pids else [],
    lookup_perm hperm hsorted, ← pairUnits, hspans, append_nil, sharedWith]
  cases view.shared.lookup peer with
  | some pids => rfl
  | none => split <;> rfl

theorem spanUnits_plan [Blake2b] (view : ReplicaView) (total n : Nat) :
    spanUnits (plan view total n) = handoffUnits total n := by
  have hpairs : ∀ u ∈ (view.shared.insertionSort fun a b => a.1 ≤ b.1).flatMap (fun e =>
      if initiates view.nodeId e.1 then replicaUnits n e.1 e.2 else []), u.peer ≠ none := by
    intro u hu
    obtain ⟨e, _, hu⟩ := mem_flatMap.mp hu
    split at hu
    · obtain ⟨slice, _, rfl⟩ := mem_map.mp hu
      exact nofun
    · cases hu
  have hspans : ∀ u ∈ handoffUnits total n, u.peer = none := by
    intro u hu
    obtain ⟨i, _, rfl⟩ := mem_map.mp hu
    rfl
  rw [plan, spanUnits, filter_append, filter_eq_nil_iff.mpr (by simpa using hpairs),
    filter_eq_self.mpr (by simpa using hspans), nil_append]

def SweepUnit.span (u : SweepUnit) : List Nat := range' u.lo (u.hi - u.lo)

theorem range_append_span (start next : Nat) (h : start ≤ next) :
    range start ++ range' start (next - start) = range next := by
  have hjoin := range'_append_1 (s := 0) (m := start) (n := next - start)
  rw [Nat.zero_add, Nat.add_sub_cancel' h] at hjoin
  rw [range_eq_range', range_eq_range', hjoin]

theorem spans_partition {total n : Nat} (hn : 1 ≤ n) :
    (handoffUnits total n).flatMap SweepUnit.span = range total := by
  have hcount (k : Nat) : ((range k).flatMap fun i =>
      range' (i * n) (min (i * n + n) total - i * n)) = range (min (k * n) total) := by
    induction k with
    | zero => simp
    | succ k ih =>
      rw [range_succ, flatMap_append, ih, flatMap_singleton, Nat.succ_mul]
      rcases Nat.le_total (k * n) total with hle | hge
      · rw [Nat.min_eq_left hle]
        exact range_append_span _ _ (by omega)
      · have hempty : min (k * n + n) total - k * n = 0 := by omega
        rw [hempty, range'_zero, append_nil]
        congr 1
        omega
  have hcovers : total ≤ (total + n - 1) / n * n := by
    have hdiv := Nat.div_add_mod (total + n - 1) n
    have hmod := Nat.mod_lt (total + n - 1) hn
    rw [Nat.mul_comm] at hdiv
    omega
  have hall := hcount ((total + n - 1) / n)
  rw [Nat.min_eq_right hcovers] at hall
  rw [handoffUnits, flatMap_map]
  exact hall

section Views

variable (t : Topology) (serial : String) (p : Partitioner) (space : HashSpace) (rf : Nat)

theorem nodeId_buildView (node : String) : (buildView t serial p space rf node).nodeId = node := by
  unfold buildView
  split <;> rfl

theorem nodup_shared (node : String) : ((buildView t serial p space rf node).shared.map Prod.fst).Nodup := by
  rw [buildView_shared]
  exact nodup_gather _

theorem sharedWith_buildView {node peer : String} (hne : peer ≠ node) :
    (buildView t serial p space rf node).sharedWith peer = (range p.totalPartitions).filter fun pid =>
        node ∈ t.replicasAt p space rf pid ∧ peer ∈ t.replicasAt p space rf pid := by
  rw [sharedWith, buildView_shared, lookup_gather]
  exact snd_sharedPairs (t.nodup_replicasAt p space rf) hne _

theorem isReplica_buildView (node other : String) (pid : Nat) :
    (buildView t serial p space rf node).isReplica pid other = true ↔
      pid < p.totalPartitions ∧ other ∈ t.replicasAt p space rf pid := by
  rw [isReplica, replicasOf, buildView_replicas, decide_eq_true_iff, getD_eq_getElem?_getD, getElem?_map]
  by_cases hpid : pid < p.totalPartitions
  · rw [getElem?_range hpid]
    simp [hpid]
  · rw [getElem?_eq_none (by simpa using hpid)]
    simp [hpid]

end Views

end Tourillon
