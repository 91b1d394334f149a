import Tourillon.AntiEntropy.View
import Tourillon.Library.Program
import Tourillon.Storage.Retention

namespace Tourillon

open Endian Prog

inductive GcError where
  | python (e : PyError)
  | unfinished
  deriving DecidableEq, Repr

inductive CollectionState where
  | idle
  | queued
  | running
  | completed
  | failed
  deriving DecidableEq, Repr

structure CollectionStatus where
  state : CollectionState := .idle
  dryRun : Bool := false
  scanned : Nat := 0
  collected : Nat := 0
  bytesRemoved : Nat := 0
  error : Option GcError := none

structure HotCollection where
  address : PartitionAddress
  scanned : Nat
  count : Nat
  size : Nat

structure GcState where
  groups : Nat → GroupStorage
  hot : List PartitionAddress
  overflowed : Nat
  alive : Bool
  pending : Bool
  status : CollectionStatus
  sessions : Nat
  collections : List HotCollection

def GcState.withGroup (w : GcState) (group : Nat) (g : GroupStorage) : GcState :=
  { w with groups := Function.update w.groups group g }

structure GarbageCollector where
  partitioner : Partitioner
  retention : RetentionPolicy
  batchSize : Nat
  batched : 1 ≤ batchSize
  hotqueueSize : Nat
  commit : Nat → Except PyError Unit
  arrivals : Nat → List PartitionAddress
  fuel : Nat

abbrev Gc := Prog GcState GcError

namespace GarbageCollector

variable (c : GarbageCollector)

def submit (w : GcState) (address : PartitionAddress) : GcState :=
  if address ∈ w.hot then w
  else if c.hotqueueSize ≤ w.hot.length then { w with overflowed := w.overflowed + 1 }
  else { w with hot := w.hot ++ [address] }

def request (w : GcState) (dryRun : Bool) : Except PyError GcState :=
  if w.alive = false then .error (.valueError "GC worker is not running")
  else if w.pending ∨ w.status.state = .running then
    .error (.valueError "GC pass already queued or running; inspect its progress")
  else .ok { w with status := { state := .queued, dryRun }, pending := true }

variable [Blake2b]

def readSession {α : Type} (body : GroupSession → Except PyError (α × GroupSession))
    (g : GroupStorage) : Except PyError α := do
  let (a, _) ← body (.start g)
  return a

def settle (w : GcState) : GcState :=
  { (c.arrivals w.sessions).foldl c.submit w with sessions := w.sessions + 1 }

def session {α : Type} (group : Nat) (dryRun : Bool)
    (body : GroupSession → Except PyError (α × GroupSession)) : Gc α := fun w =>
  if dryRun then ((readSession body (w.groups group)).mapError .python, c.settle w)
  else
    let run := GroupSessionManager.session body (c.commit w.sessions) (w.groups group)
    (run.1.mapError .python, c.settle (w.withGroup group run.2))

theorem session_write {α : Type} (group : Nat)
    (body : GroupSession → Except PyError (α × GroupSession)) (w : GcState) {r : Except PyError α}
    {g : GroupStorage} (h : GroupSessionManager.session body (c.commit w.sessions) (w.groups group) = (r, g)) :
    c.session group false body w = (r.mapError .python, c.settle (w.withGroup group g)) := by
  simp only [session, h, Bool.false_eq_true, if_false]

def collectPage (after : Option Bytes) (dryRun : Bool) (s : GroupSession) :
    Except PyError ((List Key × Nat × Nat) × GroupSession) := do
  let keys ← s.storage.logPage after c.batchSize
  let (totals, s) ← c.retention.collect s keys dryRun
  return ((keys, totals), s)

def collectOldest (address : PartitionAddress) (s : GroupSession) :
    Except PyError ((List Key × Nat × Nat) × GroupSession) := do
  let records ← s.storage.oldestKeys address c.batchSize
  let (totals, s) ← c.retention.collect s records
  return ((records, totals), s)

def collectAddress (address : PartitionAddress) : Gc Unit := do
  let (records, count, size) ← c.session (c.partitioner.groupFor address.pid) false (c.collectOldest address)
  modify fun w => { w with collections := w.collections ++ [⟨address, records.length, count, size⟩] }
  whenever (count = c.batchSize) (modify fun w => c.submit w address)

def hotStep : Gc Unit := do
  let w ← get
  match w.hot with
  | [] => pure ()
  | address :: rest => do
    modify fun w => { w with hot := rest }
    let _ ← attempt (c.collectAddress address)

def hotSteps : Nat → Gc Unit
  | 0 => pure ()
  | n + 1 => do
    c.hotStep
    hotSteps n

def scanTotals (keys : List Key) (count size : Nat) (w : GcState) : GcState :=
  { w with status := { w.status with
      scanned := w.status.scanned + keys.length
      collected := w.status.collected + count
      bytesRemoved := w.status.bytesRemoved + size } }

def cursorAfter (keys : List Key) : Except GcError Bytes :=
  match keys.getLast? with
  | none => .error (.python .indexError)
  | some key => (key.toBytes .tags).mapError .python

def scanStep (dryRun : Bool) (group : Nat) (after : Option Bytes) : Gc (Option Bytes ⊕ Unit) := do
  let (keys, count, size) ← c.session group dryRun (c.collectPage after dryRun)
  modify (scanTotals keys count size)
  if keys.length < c.batchSize then pure (.inr ())
  else do
    let after ← lift (cursorAfter keys)
    whenever (dryRun = false) c.hotStep
    pure (.inl (some after))

def scanPage (group : Nat) (after : Option Bytes) : Gc (Option Bytes ⊕ Unit) := do
  let w ← get
  c.scanStep w.status.dryRun group after

def scanGroup (group : Nat) : Gc Unit := iterate .unfinished (c.scanPage group) c.fuel none

def scan : Gc Unit := each (List.range c.partitioner.totalGroups) c.scanGroup

def startPass (w : GcState) : GcState :=
  { w with
    status := { (if w.pending then w.status else { state := .queued }) with state := .running }
    pending := false }

def finishPass (outcome : Except GcError Unit) (w : GcState) : GcState :=
  match outcome with
  | .ok _ => { w with status := { w.status with state := .completed } }
  | .error e => { w with status := { w.status with state := .failed, error := some e } }

def pass : Gc Unit := do
  modify startPass
  let outcome ← attempt c.scan
  modify (finishPass outcome)

end GarbageCollector

end Tourillon
