import Tourillon.Library.Distinct
import Tourillon.Store.Placement

namespace Tourillon

open Distinct Sequence List

namespace Topology

variable (t : Topology)

def notePhase (found : OrderedMap String MemberPhase) (v : VNode) : OrderedMap String MemberPhase :=
  match t.registry.get v.nodeId with
  | none => found
  | some m => found.insert v.nodeId m.phase

def phases : OrderedMap String MemberPhase := t.ring.vnodes.foldl t.notePhase ∅

def known (keep : MemberPhase → Bool) : List String :=
  (t.phases.entries.filter fun e => keep e.2).map Prod.fst

def targets : List String := t.known fun phase => phase ≠ .draining

def serving : List String := t.known fun phase => phase ≠ .joining

end Topology

def Ring.walk (r : Ring) (start : Nat) (known : List String) (rf : Nat) : List String :=
  firstDistinct (fun candidate => candidate ∈ known) rf ((turn r.vnodes start).map VNode.nodeId) []

def Topology.walks (t : Topology) (rf : Nat) (start : Nat) : List String × List String :=
  (t.ring.walk start t.targets rf, t.ring.walk start t.serving rf)

structure ViewState where
  memo : OrderedMap Nat (List String × List String)
  replicas : List (List String)
  sources : List (List String)
  shared : List (String × List Nat)
  owns : Bool

def ViewState.visit (walks : Nat → List String × List String) (index : Nat → Nat) (node : String)
    (s : ViewState) (pid : Nat) : ViewState :=
  match s.memo.consult walks (index pid) with
  | (walked, memo) =>
    { memo := memo
      replicas := s.replicas ++ [walked.1]
      sources := s.sources ++ [walked.2]
      shared :=
        if node ∈ walked.1 then
          (walked.1.filter fun peer => peer ≠ node).foldl (fun shared peer => appendAt peer pid shared)
            s.shared
        else s.shared
      owns := s.owns || node ∈ walked.1 }

def Topology.position (t : Topology) (p : Partitioner) (space : HashSpace) (pid : Nat) : Nat :=
  t.ring.bisectLeft (p.partitionEnd space pid) % t.ring.vnodes.length

def buildView (t : Topology) (serial : String) (p : Partitioner) (space : HashSpace) (rf : Nat)
    (node : String) : ReplicaView :=
  if t.ring.vnodes = [] then
    { nodeId := node
      serial := serial
      replicas := replicate p.totalPartitions []
      shared := []
      sources := replicate p.totalPartitions []
      owns := false }
  else
    let done := (range p.totalPartitions).foldl
      (ViewState.visit (t.walks rf) (t.position p space) node) ⟨∅, [], [], [], false⟩
    { nodeId := node
      serial := serial
      replicas := done.replicas
      shared := done.shared
      sources := done.sources
      owns := done.owns }

def sharedPairs (owners : Nat → List String) (node : String) (pids : List Nat) : List (String × Nat) :=
  pids.flatMap fun pid =>
    if node ∈ owners pid then ((owners pid).filter fun peer => peer ≠ node).map fun peer => (peer, pid)
    else []

def recomputedView (t : Topology) (serial : String) (p : Partitioner) (space : HashSpace) (rf : Nat)
    (node : String) : ReplicaView :=
  let walked (pid : Nat) := t.walks rf (t.position p space pid)
  let pids := range p.totalPartitions
  { nodeId := node
    serial := serial
    replicas := pids.map fun pid => (walked pid).1
    shared := gather (sharedPairs (fun pid => (walked pid).1) node pids)
    sources := pids.map fun pid => (walked pid).2
    owns := pids.any fun pid => node ∈ (walked pid).1 }

section Memoised

variable {walks : Nat → List String × List String} (index : Nat → Nat) (node : String)

theorem ViewState.visit_eq {s : ViewState} (h : s.memo.Tabulates walks) (pid : Nat) :
    ∃ memo, memo.Tabulates walks ∧ s.visit walks index node pid =
      { memo := memo
        replicas := s.replicas ++ [(walks (index pid)).1]
        sources := s.sources ++ [(walks (index pid)).2]
        shared := (sharedPairs (fun pid => (walks (index pid)).1) node [pid]).foldl
          (fun shared e => appendAt e.1 e.2 shared) s.shared
        owns := s.owns || node ∈ (walks (index pid)).1 } := by
  obtain ⟨hvalue, hmemo⟩ := h.consult (index pid)
  refine ⟨_, hmemo, ?_⟩
  rw [ViewState.visit, sharedPairs, flatMap_singleton]
  dsimp only
  rw [hvalue]
  split
  · rw [foldl_map]
  · rfl

theorem ViewState.visit_all (pids : List Nat) (s : ViewState) (h : s.memo.Tabulates walks) :
    ∃ memo, pids.foldl (ViewState.visit walks index node) s =
      { memo := memo
        replicas := s.replicas ++ pids.map fun pid => (walks (index pid)).1
        sources := s.sources ++ pids.map fun pid => (walks (index pid)).2
        shared := (sharedPairs (fun pid => (walks (index pid)).1) node pids).foldl
          (fun shared e => appendAt e.1 e.2 shared) s.shared
        owns := s.owns || pids.any fun pid => node ∈ (walks (index pid)).1 } := by
  induction pids generalizing s with
  | nil => exact ⟨s.memo, by simp [sharedPairs]⟩
  | cons pid pids ih =>
    obtain ⟨memo, hmemo, hvisit⟩ := ViewState.visit_eq index node h pid
    obtain ⟨last, hrest⟩ := ih (s.visit walks index node pid) (by rw [hvisit]; exact hmemo)
    refine ⟨last, ?_⟩
    rw [foldl_cons, hrest, hvisit]
    simp only [sharedPairs, map_cons, append_assoc, singleton_append, flatMap_cons,
      flatMap_nil, append_nil, foldl_append, any_cons, Bool.or_assoc]

end Memoised

theorem buildView_eq_recomputed {t : Topology} (hring : t.ring.vnodes ≠ []) (serial : String)
    (p : Partitioner) (space : HashSpace) (rf : Nat) (node : String) :
    buildView t serial p space rf node = recomputedView t serial p space rf node := by
  obtain ⟨memo, hdone⟩ := ViewState.visit_all (t.position p space) node
    (range p.totalPartitions) ⟨∅, [], [], [], false⟩ (OrderedMap.tabulates_empty (t.walks rf))
  rw [buildView, if_neg hring, hdone]
  rfl

def Topology.replicasAt (t : Topology) (p : Partitioner) (space : HashSpace) (rf pid : Nat) : List String :=
  if t.ring.vnodes = [] then [] else (t.walks rf (t.position p space pid)).1

theorem Topology.nodup_replicasAt (t : Topology) (p : Partitioner) (space : HashSpace) (rf pid : Nat) :
    (t.replicasAt p space rf pid).Nodup := by
  rw [replicasAt]
  split
  · exact nodup_nil
  · exact nodup_firstDistinct nodup_nil

theorem snd_sharedPairs {owners : Nat → List String} (howners : ∀ pid, (owners pid).Nodup)
    {node peer : String} (hne : peer ≠ node) (pids : List Nat) :
    ((sharedPairs owners node pids).filter fun e => e.1 = peer).map Prod.snd =
      pids.filter fun pid => node ∈ owners pid ∧ peer ∈ owners pid := by
  induction pids with
  | nil => rfl
  | cons pid pids ih =>
    rw [sharedPairs, flatMap_cons, filter_append, map_append, ← sharedPairs, ih, filter_cons]
    by_cases hnode : node ∈ owners pid
    · have hpeers : ((owners pid).filter fun peer => peer ≠ node).filter (fun x => x = peer) =
          replicate ((owners pid).count peer) peer := by
        rw [filter_filter, ← filter_eq]
        apply filter_congr
        intro x _
        by_cases hx : x = peer
        · simp [hx, hne]
        · simp [hx]
      have hslots : ((((owners pid).filter fun peer => peer ≠ node).map fun peer => (peer, pid)).filter
          fun e => e.1 = peer).map Prod.snd = replicate ((owners pid).count peer) pid := by
        rw [filter_map, map_map]
        change ((((owners pid).filter fun peer => peer ≠ node).filter fun x => x = peer).map fun _ => pid) = _
        rw [hpeers, map_replicate]
      rw [if_pos hnode, hslots]
      by_cases hpeer : peer ∈ owners pid
      · rw [count_eq_one_of_mem (howners pid) hpeer]
        simp [hnode, hpeer]
      · rw [count_eq_zero.mpr hpeer]
        simp [hpeer]
    · rw [if_neg hnode]
      simp [hnode]

theorem buildView_replicas (t : Topology) (serial : String) (p : Partitioner) (space : HashSpace)
    (rf : Nat) (node : String) : (buildView t serial p space rf node).replicas =
      (range p.totalPartitions).map (t.replicasAt p space rf) := by
  by_cases hring : t.ring.vnodes = []
  · have hnone : t.replicasAt p space rf = fun _ => [] := by
      funext pid
      exact if_pos hring
    rw [buildView, if_pos hring, hnone, map_const', length_range]
  · have hwalk : t.replicasAt p space rf = fun pid => (t.walks rf (t.position p space pid)).1 := by
      funext pid
      exact if_neg hring
    rw [buildView_eq_recomputed hring, hwalk]
    rfl

theorem buildView_shared (t : Topology) (serial : String) (p : Partitioner) (space : HashSpace)
    (rf : Nat) (node : String) : (buildView t serial p space rf node).shared =
      gather (sharedPairs (t.replicasAt p space rf) node (range p.totalPartitions)) := by
  by_cases hring : t.ring.vnodes = []
  · have hnone : t.replicasAt p space rf = fun _ => [] := by
      funext pid
      exact if_pos hring
    have hpairs : sharedPairs (fun _ => []) node (range p.totalPartitions) = [] := by simp [sharedPairs]
    rw [buildView, if_pos hring, hnone, hpairs]
    rfl
  · have hwalk : t.replicasAt p space rf = fun pid => (t.walks rf (t.position p space pid)).1 := by
      funext pid
      exact if_neg hring
    rw [buildView_eq_recomputed hring, hwalk]
    rfl

end Tourillon
