import Tourillon.AntiEntropy.Activity
import Tourillon.AntiEntropy.Service

namespace Tourillon

open Prog Sequence

inductive ReplyValue where
  | absent
  | boolean (value : Bool)
  | integer (value : Int)
  | other
  deriving DecidableEq, Repr

structure PushReply where
  applied : ReplyValue
  alreadyPresent : ReplyValue
  ignoredRetention : ReplyValue
  deriving DecidableEq, Repr

def ReplyValue.disposition (name : String) : ReplyValue → Except PyError Nat
  | .integer value =>
    if value < 0 then .error (.valueError s!"invalid push disposition: {name}") else .ok value.toNat
  | _ => .error (.valueError s!"invalid push disposition: {name}")

def PushReply.deliveryCount (r : PushReply) : Except PyError Nat := do
  let applied ← r.applied.disposition "applied"
  let alreadyPresent ← r.alreadyPresent.disposition "already_present"
  let ignoredRetention ← r.ignoredRetention.disposition "ignored_retention"
  return applied + alreadyPresent + ignoredRetention

def PushResult.reply (r : PushResult) : PushReply :=
  ⟨.integer r.applied, .integer r.alreadyPresent, .integer r.ignoredRetention⟩

def latestRecord (c : Cluster) (node : String) (byAddress : List (PartitionAddress × Option Record))
    (address : PartitionAddress) : Ae (Option Record) :=
  match byAddress.lookup address with
  | some record => pure record
  | none => c.readSession node (c.groupFor address.pid) fun g => g.newest address

def latestRecords (c : Cluster) (node : String) :
    List ObligationKey → List (PartitionAddress × Option Record) → Ae (List (Key × Record))
  | [], _ => pure []
  | ob :: obligations, byAddress => do
    let record ← latestRecord c node byAddress ob.address
    let found ← latestRecords c node obligations ((ob.address, record) :: byAddress)
    pure (match record with
      | some r => if ob.requiredTs ≤ r.key.ts then (ob.key, r) :: found else found
      | none => found)

def covering (records : List (Key × Record)) (ob : ObligationKey) : Except PyError Record :=
  match records.lookup ob.key with
  | some r => .ok r
  | none => .error (.keyError (ob.key.encode .tags))

structure ChunkAcc where
  done : List (List ObligationKey) := []
  current : List ObligationKey := []
  size : Nat := 0

def ChunkAcc.add (maxBytes : Nat) (acc : ChunkAcc) (debts : Nat × List ObligationKey) : ChunkAcc :=
  if acc.current ≠ [] ∧ acc.size + debts.1 > maxBytes then
    { done := acc.done ++ [acc.current], current := debts.2, size := debts.1 }
  else { acc with current := acc.current ++ debts.2, size := acc.size + debts.1 }

def costOf (records : List (Key × Record)) (debts : List ObligationKey) : Except PyError Nat :=
  match debts with
  | [] => .error .indexError
  | ob :: _ => do
    let r ← covering records ob
    return recordSize r

def obligationChunks (obligations : List ObligationKey) (records : List (Key × Record))
    (maxBytes : Nat) : Except PyError (List (List ObligationKey)) := do
  let keyed ← obligations.mapM fun ob => do
    let r ← covering records ob
    return (r.key, ob)
  let costed ← (gather keyed).mapM fun e => do
    let cost ← costOf records e.2
    return (cost, e.2)
  let acc := costed.foldl (ChunkAcc.add maxBytes) {}
  return if acc.current = [] then acc.done else acc.done ++ [acc.current]

def uniqueRecords (records : List (Key × Record)) (chunk : List ObligationKey) : Except PyError (List Record) := do
  let keyed ← chunk.mapM fun ob => do
    let r ← covering records ob
    return (r.key, r)
  return (gather keyed).filterMap fun e => e.2.getLast?

def deliveryOrder (obligations : List ObligationKey) : Except PyError (List ObligationKey) := do
  let keyed ← obligations.mapM fun ob => do
    let raw ← ob.key.toBytes .tags
    return (ob, raw)
  return (keyed.insertionSort fun a b =>
    a.1.target < b.1.target ∨ a.1.target = b.1.target ∧ a.2 ≤ b.2).map Prod.fst

structure Chronicle where
  world : World
  history : List Shared

def observe {α : Type} (x : Ae α) : Prog Chronicle AeError α := fun s =>
  match x s.world with
  | (r, w) => (r, ⟨w, w.shared :: s.history⟩)

def evaluate {α : Type} (r : Except PyError α) : Prog Chronicle AeError α := lift (r.mapError AeError.python)

structure Courier extends Deployment where
  node : String
  batchBytes : Nat
  happen : Nat → List Activity
  fault : Nat → Option AeError
  commit : Nat → Except PyError Unit
  garble : Nat → PushReply → PushReply
  nowMs : Nat → Int
  fuel : Nat
  sole : ∀ t, ∀ a ∈ happen t, a.forgetsAt ≠ some node

namespace Courier

variable [Blake2b] (co : Courier)

def cluster : Cluster where
  partitioner := co.partitioner
  policy := co.policy
  env :=
    { step := fun t sh => (co.happen t).foldl (Activity.act co.toDeployment) sh
      fault := co.fault
      commit := co.commit
      nowMs := co.nowMs }
  fuel := co.fuel

def owed (view : ReplicaView) (ob : ObligationKey) : Bool :=
  ob.target ≠ co.node && view.covers [ob.key.pid] && view.isReplica ob.key.pid ob.target

def raiseBacklog : Ae Unit := modify fun w => { w with shared := { w.shared with backlog := true } }

def park (target : String) : Ae Unit := do
  let w ← get
  whenever (w.shared.deferred target = false) (Service.deferPeer target true)
  raiseBacklog

def removeObligations (obligations : List ObligationKey) : Prog Chronicle AeError Unit :=
  each (groupRuns (fun ob => co.cluster.groupFor ob.key.pid)
      (obligations.insertionSort fun a b => a.key.pid ≤ b.key.pid)) fun run => do
    observe co.cluster.interfere
    observe (co.cluster.commitSession co.node run.1 fun s => do
      let s ← s.removeObligations run.2
      return ((), s))
    observe co.cluster.interfere

def push (target : String) (scope : Scope) (records : List Record) : Ae Unit := do
  co.cluster.transit
  let result ← Responder.pushResult co.cluster target scope records
  co.cluster.transit
  let w ← get
  let acknowledged ← Cluster.python (co.garble w.tick result.reply).deliveryCount
  check (acknowledged ≠ records.length)
    (.protocol "obligation push did not acknowledge every record")

def pushObligations (target : String) (pid : Nat) (obligations : List ObligationKey)
    (records : List (Key × Record)) (view : ReplicaView) : Prog Chronicle AeError Bool := do
  let hash ← evaluate (view.viewHash [pid])
  let chunks ← evaluate (obligationChunks obligations records co.batchBytes)
  every chunks fun chunk => do
    let unique ← evaluate (uniqueRecords records chunk)
    match ← attempt (observe (co.push target ⟨[pid], hash, (co.policy co.node).versions⟩ unique)) with
    | .ok () => do
      co.removeObligations chunk
      pure true
    | .error e =>
      if e.endsSession then do
        observe (Service.deferPeer target true)
        pure false
      else raise e

def deliverTo (target : String) (obligations : List ObligationKey) (records : List (Key × Record))
    (view : ReplicaView) : Prog Chronicle AeError Unit := do
  let up ← observe (Service.eligible co.cluster target)
  if !up then observe (park target)
  else do
    let delivered ← every (groupRuns (fun ob => ob.key.pid) obligations) fun run =>
      co.pushObligations target run.1 run.2 records view
    if delivered then observe (Service.deferPeer target false) else observe raiseBacklog

def deliver (batch : List ObligationKey) (view : ReplicaView) : Prog Chronicle AeError Unit := do
  let owed := batch.eraseDups.filter (co.owed view)
  let records ← observe (latestRecords co.cluster co.node owed [])
  let obsolete := batch.filter fun ob => ob ∉ owed
  whenever (∃ ob ∈ owed, records.lookup ob.key = none) (observe raiseBacklog)
  let ready ← evaluate (deliveryOrder (owed.filter fun ob => (records.lookup ob.key).isSome))
  each (groupRuns ObligationKey.target ready) fun run => co.deliverTo run.1 run.2 records view
  whenever (obsolete ≠ []) (co.removeObligations obsolete)

end Courier

end Tourillon
