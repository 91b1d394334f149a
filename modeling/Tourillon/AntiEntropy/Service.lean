import Tourillon.AntiEntropy.PeerSync

namespace Tourillon

open Endian Prog Sequence

structure Service where
  node : String
  limits : SessionLimits
  pidsPerCycle : Nat
  graceMs : Int
  cyclePositive : 1 ≤ pidsPerCycle

inductive SessionOutcome where
  | ok
  | viewChanged
  | budgetSpent
  | failed
  deriving DecidableEq, Repr

inductive PeerOutcome where
  | skipped
  | failed
  | completed (recent : List Nat)
  deriving DecidableEq, Repr

structure DrainPass where
  start : Shared
  view : ReplicaView
  cutoffMs : Int
  exchanges : List (List Nat × Exchange)

structure JoinPass where
  start : Shared
  view : ReplicaView
  cutoffMs : Int
  primary : Exchange
  fallback : Exchange

structure SweepUnit where
  peer : Option String
  pids : List Nat := []
  lo : Nat := 0
  hi : Nat := 0
  deriving DecidableEq, Repr

def sessionPhases : List MemberPhase := [.joining, .ready, .draining]

def sourcePhases : List MemberPhase := [.ready, .draining]

def AeError.endsSession : AeError → Bool
  | .rejected _ _ => true
  | .transport => true
  | .protocol _ => true
  | .python (.valueError _) => true
  | .python (.runtimeError _) => true
  | .python (.keyError _) => true
  | _ => false

def Exchange.record (result : Exchange) : (String × List Nat) × PeerOutcome → Exchange
  | ((peer, _), .skipped) => { result with skipped := result.skipped ++ [peer] }
  | ((peer, _), .failed) => { result with failed := result.failed ++ [peer] }
  | ((_, pids), .completed recent) =>
    { result with reached := result.reached ++ pids.filter fun pid => pid ∉ recent }

def targets (view : ReplicaView) (pids : List Nat) : Except PyError (List (String × List Nat)) := do
  let pairs ← pids.mapM fun pid =>
    match view.replicas[pid]? with
    | none => .error .indexError
    | some peers => .ok (peers.map fun peer => (peer, pid))
  return gather pairs.flatten

def handedAll (view : ReplicaView) (pids : List Nat) (result : Exchange) : Bool :=
  pids.all fun pid =>
    let needed := (view.replicasOf pid).filter fun p => p ∉ result.skipped
    needed ≠ [] && needed.length ≤ result.reached.count pid

def fallbackSources (view : ReplicaView) (primaries : List (String × List Nat))
    (down : List String) : List (String × List Nat) :=
  gather (down.flatMap fun primary =>
    ((primaries.lookup primary).getD []).flatMap fun pid =>
      ((view.sourcesOf pid).filter fun peer => peer ≠ primary ∧ peer ≠ view.nodeId).map
        fun peer => (peer, pid))

namespace Service

variable [Blake2b] (c : Cluster) (sv : Service)

section

variable (peer : String)

def deferPeer (deferred : Bool) : Ae Unit :=
  modify fun w => { w with shared := { w.shared with
    deferred := fun q => if q = peer then deferred else w.shared.deferred q } }

def syncProgress (view : ReplicaView) : Ae Nat := do
  let w ← get
  match w.shared.refs.lookup (peer, view.serial) with
  | some ref => pure ref
  | none => do
    modify fun w => { w with shared := w.shared.newProgress peer view.serial }
    pure w.shared.nextRef

def peerSync (view : ReplicaView) (epoch : Nat) (cutoffMs : Int) (ref : Nat) :
    PeerSync :=
  { self := sv.node
    peer := peer
    view := view
    epoch := epoch
    limits := sv.limits
    cutoffMs := cutoffMs
    ref := ref }

def guard (work : Ae Unit) : Ae SessionOutcome := do
  match ← attempt work with
  | .ok () => do
    deferPeer peer false
    pure .ok
  | .error .viewChanged => pure .viewChanged
  | .error (.budgetSpent _) => pure .budgetSpent
  | .error e =>
    if e.endsSession then do
      deferPeer peer true
      pure .failed
    else raise e

def reachable (phases : List MemberPhase) : Ae Bool := do
  c.interfere
  let w ← get
  pure ((w.shared.registry peer).any (fun phase => phase ∈ phases) && w.shared.alive peer)

def runSession (pids : List Nat) (view : ReplicaView) (epoch : Nat) (cutoffMs : Int) : Ae SessionOutcome := do
  let ref ← syncProgress peer view
  modify fun w => { w with tally := {}, recent := [] }
  guard peer ((sv.peerSync peer view epoch cutoffMs ref).syncRoots c pids)

end

def exchangePeer (view : ReplicaView) (epoch : Nat) (cutoffMs : Int) (phases : List MemberPhase)
    (goal : Bool) (target : String × List Nat) : Ae PeerOutcome := do
  let up ← reachable c target.1 phases
  let w ← get
  if !up then pure .skipped
  else if w.shared.deferred target.1 then pure .failed
  else do
    let outcome ← sv.runSession c target.1 target.2 view epoch cutoffMs
    let w ← get
    if outcome ≠ .ok then pure .failed
    else pure (.completed (if goal then [] else w.recent))

def exchange (targets : List (String × List Nat)) (view : ReplicaView) (epoch : Nat)
    (cutoffMs : Int) (phases : List MemberPhase) (goal : Bool) : Ae Exchange := do
  let sorted := targets.insertionSort fun a b => a.1 ≤ b.1
  let outcomes ← collect sorted (sv.exchangePeer c view epoch cutoffMs phases goal)
  pure ((sorted.zip outcomes).foldl Exchange.record {})

def waitReady : Ae (ReplicaView × Nat) :=
  c.loop (fun _ => do
    let w ← get
    match (w.shared.nodes sv.node).tracker.view with
    | some view => pure (.inr (view, (w.shared.nodes sv.node).tracker.epoch))
    | none => do
      c.interfere
      pure (.inl ())) ()

def nowMs : Ae Int := do
  let w ← get
  pure (c.env.nowMs w.tick)

def drainPass (view : ReplicaView) (epoch : Nat) : Ae (Bool × DrainPass) := do
  let w ← get
  let cutoffMs ← nowMs c
  let (done, exchanges) ← c.loop (fun (after, complete, exchanges) => do
    let (roots, next) ← LocalStore.rootPage c sv.node after sv.pidsPerCycle
    let pids := roots.map Prod.fst
    let peers ← Cluster.python (targets view pids)
    let result ← sv.exchange c peers view epoch cutoffMs sessionPhases true
    let complete := complete && handedAll view pids result
    let exchanges := exchanges ++ [(pids, result)]
    let w ← get
    let stale := w.shared.stale sv.node epoch
    if next.isNone || stale then pure (.inr (complete && !stale, exchanges))
    else pure (.inl (next, complete, exchanges))) (none, true, [])
  pure (done, ⟨w.shared, view, cutoffMs, exchanges⟩)

def drain : Ae DrainPass :=
  c.loop (fun _ => do
    let (view, epoch) ← sv.waitReady c
    if view.owns then do
      c.interfere
      pure (.inl ())
    else do
      let (done, pass) ← sv.drainPass c view epoch
      if done then pure (.inr pass)
      else do
        c.interfere
        pure (.inl ())) ()

def joinSources (view : ReplicaView) : List (String × List Nat) :=
  gather ((List.range view.replicas.length).filterMap fun pid =>
    if view.isReplica pid view.nodeId then
      (view.primarySource pid).map fun primary => (primary, pid)
    else none)

def joinPass (view : ReplicaView) (epoch : Nat) : Ae (Bool × JoinPass) := do
  let w ← get
  c.interfere
  let primaries := joinSources view
  let cutoffMs ← nowMs c
  let result ← sv.exchange c primaries view epoch cutoffMs sourcePhases true
  let fallback := fallbackSources view primaries result.skipped
  if fallback = [] then pure (result.failed ≠ [], ⟨w.shared, view, cutoffMs, result, {}⟩)
  else do
    let again ← sv.exchange c fallback view epoch cutoffMs sourcePhases true
    pure (result.failed ≠ [] || again.failed ≠ [], ⟨w.shared, view, cutoffMs, result, again⟩)

def waitJoined : Ae JoinPass :=
  c.loop (fun _ => do
    let (view, epoch) ← sv.waitReady c
    if !view.owns then do
      c.interfere
      pure (.inl ())
    else do
      let (failed, pass) ← sv.joinPass c view epoch
      let w ← get
      if !failed && !w.shared.stale sv.node epoch then pure (.inr pass)
      else do
        c.interfere
        pure (.inl ())) ()

def cutoffMs : Ae Int := do
  let w ← get
  pure (c.env.nowMs w.tick - sv.graceMs)

def orphanMark (view : ReplicaView) (hi : Nat) (handed : List (Nat × (BitVec 128 × Bytes)))
    (root : Nat × DigestCell) : Except PyError (Option (Nat × (BitVec 128 × Bytes))) :=
  if root.1 ≥ hi then .ok none
  else match view.replicas[root.1]? with
    | none => .error .indexError
    | some peers =>
      if view.nodeId ∈ peers ∨ peers = [] then .ok none
      else do
        let hash ← view.viewHash [root.1]
        let cell ← root.2.toBytes
        return if handed.lookup root.1 = some (hash, cell) then none
          else some (root.1, (hash, cell))

def orphans (unit : SweepUnit) (view : ReplicaView) : Ae (List (Nat × (BitVec 128 × Bytes))) := do
  let after := if unit.lo = 0 then none else some (unit.lo - 1)
  let (roots, _) ← LocalStore.rootPage c sv.node after (unit.hi - unit.lo)
  let w ← get
  Cluster.python (roots.filterMapM (orphanMark view unit.hi w.shared.handed))

def recordMark (pid : Nat) (mark : BitVec 128 × Bytes) : Ae Unit :=
  modify fun w => { w with shared := { w.shared with
    handed := (pid, mark) :: w.shared.handed.filter fun e => e.1 ≠ pid } }

def handoff (unit : SweepUnit) (view : ReplicaView) (epoch : Nat) : Ae Unit := do
  let marks ← sv.orphans c unit view
  let peers ← Cluster.python (targets view (marks.map Prod.fst))
  let cutoffMs ← sv.cutoffMs c
  let result ← sv.exchange c peers view epoch cutoffMs sessionPhases false
  each marks fun e => whenever (result.reached.count e.1 = (view.replicasOf e.1).length) (recordMark e.1 e.2)

def eligible (peer : String) : Ae Bool := do
  let w ← get
  if w.shared.deferred peer then pure false else reachable c peer sessionPhases

def runUnit (unit : SweepUnit) (view : ReplicaView) (epoch : Nat) : Ae Unit :=
  match unit.peer with
  | none => sv.handoff c unit view epoch
  | some peer => do
    let up ← eligible c peer
    if up then do
      let cutoffMs ← sv.cutoffMs c
      let _ ← sv.runSession c peer unit.pids view epoch cutoffMs
      pure ()
    else pure ()

end Service

end Tourillon
