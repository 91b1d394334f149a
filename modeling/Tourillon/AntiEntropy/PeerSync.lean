import Tourillon.AntiEntropy.Responder

namespace Tourillon

open Endian Prog Sequence Cluster LocalStore Responder

structure SessionLimits where
  keysPerRequest : Nat
  maxBatchBytes : Nat
  maxRepairs : Nat
  maxKeysScanned : Nat
  keysPositive : 1 ≤ keysPerRequest
  bytesPositive : 1 ≤ maxBatchBytes
  repairsPositive : 1 ≤ maxRepairs
  scanPositive : 2 ≤ maxKeysScanned

structure PeerSync where
  self : String
  peer : String
  view : ReplicaView
  epoch : Nat
  limits : SessionLimits
  cutoffMs : Int
  ref : Nat

inductive Direction where
  | push
  | pull
  | skip
  deriving DecidableEq, Repr

def valueSize (records : List Record) : Nat := (records.map fun r => r.value.data.length).sum

def wanted (pid : Nat) (requested : List Bytes) (r : Record) : Bool :=
  r.key.pid = pid && r.owned && (match r.key.toBytes .tags with
    | .ok raw => decide (raw ∈ requested)
    | .error _ => false)

namespace PeerSync

variable [Blake2b] (c : Cluster) (s : PeerSync)

def page : Nat :=
  min (min s.limits.keysPerRequest maxPageLimit)
    (min (max 1 (s.limits.maxKeysScanned / 2)) (max 1 s.limits.maxRepairs))

def batchBytes : Nat := min s.limits.maxBatchBytes maxBatchBytes

def cutoffBucket : Int := s.cutoffMs >>> bucketShift

def scope (pids : List Nat) : Except PyError Scope := do
  let hash ← s.view.viewHash pids
  return ⟨pids, hash, (c.policy s.self).versions⟩

def rpc {α : Type} (handler : Ae α) : Ae α := do
  let w ← get
  check (w.shared.stale s.self s.epoch) .viewChanged
  c.transit
  let a ← handler
  c.transit
  pure a

def tallied (f : SessionTally → SessionTally) : Ae Unit := modify fun w => { w with tally := f w.tally }

def spendScan (count : Nat) : Ae Unit := do
  tallied fun t => { t with keysScanned := t.keysScanned + count }
  let w ← get
  check (w.tally.keysScanned > s.limits.maxKeysScanned) (.budgetSpent "keys scanned")

def spendRepairs : Ae Unit := do
  let w ← get
  check (w.tally.pushed + w.tally.pulled ≥ s.limits.maxRepairs) (.budgetSpent "repairs")

def position (pid : Nat) : Ae (Option (Nat × Option Bytes)) := do
  let w ← get
  pure ((w.shared.progress s.peer s.ref).positions pid)

def advance (f : SyncProgress → SyncProgress) : Ae Unit :=
  modify fun w =>
    let p := f (w.shared.progress s.peer s.ref)
    { w with shared := w.shared.withProgress s.peer s.ref p }

def setPosition (pid : Nat) (pos : Option (Nat × Option Bytes)) : Ae Unit :=
  s.advance fun p => { p with positions := fun q => if q = pid then pos else p.positions q }

def setNextPid (pid : Nat) : Ae Unit := s.advance fun p => { p with nextPid := pid }

def push (scope : Scope) (pid : Nat) (keys : List Key) : Ae Unit :=
  c.loop (fun keys => do
    if keys = [] then pure (.inr ())
    else
      s.spendRepairs
      let (records, consumed) ← read c s.self pid keys s.batchBytes
      let keys := keys.drop consumed
      if records = [] then pure (.inl keys)
      else
        let response ← s.rpc c (pushResult c s.peer scope records)
        check (response.deliveryCount ≠ records.length)
          (.python (.valueError "push did not account for every submitted record"))
        tallied fun t => { t with
          pushed := t.pushed + response.applied
          pushedBytes := t.pushedBytes + valueSize records }
        pure (.inl keys)) keys

def pull (scope : Scope) (pid : Nat) (requested : List Bytes) : Ae Unit :=
  c.loop (fun keys => do
    if keys = [] then pure (.inr ())
    else
      s.spendRepairs
      let chunk := keys.take s.page
      let (records, consumed) ← s.rpc c (fetch c s.peer scope chunk s.batchBytes)
      let records := records.filter (wanted pid requested)
      let applied ← apply c s.self pid records
      tallied fun t => { t with
        pulled := t.pulled + applied
        pulledBytes := t.pulledBytes + valueSize records }
      pure (.inl (keys.drop (min consumed chunk.length)))) requested

def direction (pid : Nat) (mine theirs : List Bytes) (raw : Bytes) : Direction :=
  if raw ∉ theirs ∧ s.view.isReplica pid s.peer then .push
  else if raw ∉ mine ∧ s.view.isReplica pid s.self then .pull
  else .skip

def mergeChunk (scope : Scope) (pid : Nat) (d : Direction) (keys : List Bytes) : Ae Unit :=
  match d with
  | .push => do
    let decoded ← python (keys.mapM (Key.fromBytes .tags))
    s.push c scope pid decoded
  | .pull => s.pull c scope pid keys
  | .skip => pure ()

def mergeRun (scope : Scope) (pid bucket : Nat) (d : Direction) (keys : List Bytes) : Ae Unit :=
  c.loop (fun keys => do
    if keys = [] then pure (.inr ())
    else
      whenever (d ≠ .skip) s.spendRepairs
      let w ← get
      let remaining := s.limits.maxRepairs - w.tally.pushed - w.tally.pulled
      let chunk := keys.take (min s.page (max 1 remaining))
      s.mergeChunk c scope pid d chunk
      s.setPosition pid (some (bucket, chunk.getLast?))
      pure (.inl (keys.drop chunk.length))) keys

def mergePage (scope : Scope) (pid bucket : Nat) (boundary : Bytes) (mine theirs : List Bytes) : Ae Unit :=
  let ordered := ((mine ++ theirs).filter (· < boundary)).eraseDups.insertionSort (· ≤ ·)
  each (groupRuns (s.direction pid mine theirs) ordered) fun run => s.mergeRun c scope pid bucket run.1 run.2

def minCursor : Option Bytes → Option Bytes → Option Bytes
  | some a, some b => some (min a b)
  | some a, none => some a
  | none, some b => some b
  | none, none => none

def startCursor (saved : Option (Nat × Option Bytes)) (start stop : Bytes) : Bytes :=
  match saved with
  | some (_, some raw) => if start ≤ raw ∧ raw < stop then raw else start
  | _ => start

def syncRange (scope : Scope) (pid : Nat) (start stop : Bytes) : Ae Unit := do
  let saved ← s.position pid
  let bucket := ofBE ((start.drop pidSize).take 8) >>> bucketShift
  c.loop (fun cursor => do
    let w ← get
    let remaining := s.limits.maxKeysScanned - w.tally.keysScanned
    check (remaining < 2) (.budgetSpent "keys scanned")
    let limit := min s.page (remaining / 2)
    let (theirs, theirCursor) ← s.rpc c (keys c s.peer scope cursor stop limit)
    let (own, ownCursor) ← keys c s.self cursor stop limit
    s.spendScan (theirs.length + own.length)
    let next := minCursor theirCursor ownCursor
    let boundary := match next with
      | none => stop
      | some cursor => cursor ++ [0]
    let mine ← python (own.mapM (Key.toBytes .tags))
    s.mergePage c scope pid bucket boundary mine theirs
    match next with
    | none => do
      s.setPosition pid (some (bucket + 1, none))
      pure (.inr ())
    | some cursor => do
      s.setPosition pid (some (bucket, some cursor))
      pure (.inl cursor)) (startCursor saved start stop)

def intToBytesSigned (n : Int) (width : Nat) : Except PyError Bytes :=
  if n < 0 then .error (.overflowError "can't convert negative int to unsigned")
  else intToBytes n.toNat width

def syncBucket (scope : Scope) (pid bucket : Nat) (theirs mine : Option DigestCell) : Ae Unit := do
  let (start, stop) ← python (bucketBounds pid bucket)
  if theirs.getD 0 = mine.getD 0 then pure ()
  else
    let pidBytes ← python (intToBytes pid pidSize)
    let cutoff ← python (intToBytesSigned (s.cutoffMs + 1) 8)
    let horizon := pidBytes ++ cutoff
    if stop ≤ horizon then s.syncRange c scope pid start stop
    else
      let raw ← s.rpc c (range c s.peer scope start horizon)
      let remote ← python (DigestCell.fromBytes raw)
      let own ← rangeDigest c s.self start horizon
      if remote ≠ own then s.syncRange c scope pid start horizon else pure ()

def noteRecent (pid : Nat) (mine : List (Nat × DigestCell)) (cursor : Option Nat) : Ae Unit :=
  modify fun w =>
    if mine.any (fun e => s.cutoffBucket ≤ (e.1 : Int)) ∨
        cursor.any (fun b => s.cutoffBucket < (b : Int)) then
      { w with recent := pid :: w.recent }
    else w

def visitBucket (scope : Scope) (pid : Nat) (theirs mine : List (Nat × DigestCell)) (bucket : Nat) : Ae Unit := do
  let saved ← s.position pid
  if saved.any (fun pos => bucket < pos.1) then pure ()
  else
    whenever (saved.all fun pos => pos.1 < bucket) (s.setPosition pid (some (bucket, none)))
    s.syncBucket c scope pid bucket (theirs.lookup bucket) (mine.lookup bucket)

def decodeCells (cells : List (Nat × Bytes)) : Except PyError (List (Nat × DigestCell)) :=
  cells.mapM fun (bucket, raw) => do
    let cell ← DigestCell.fromBytes raw
    return (bucket, cell)

def syncPid (pid : Nat) : Ae Unit := do
  let scope ← python (s.scope c [pid])
  c.loop (fun after => do
    let (cells, cursor) ← s.rpc c (buckets c s.peer scope after s.page)
    let theirs ← python (decodeCells cells)
    let mine ← bucketsUntil c s.self pid after cursor s.page
    s.noteRecent pid mine cursor
    let ids := ((theirs ++ mine).map Prod.fst).eraseDups.insertionSort (· ≤ ·)
    each (ids.takeWhile fun b : Nat => decide ((b : Int) ≤ s.cutoffBucket))
      (s.visitBucket c scope pid theirs mine)
    match cursor with
    | none => pure (.inr ())
    | some b => if s.cutoffBucket < (b : Int) then pure (.inr ()) else pure (.inl (some b))) none

def pidOrder (nextPid pid : Nat) : ℕ ×ₗ ℕ := toLex (if pid < nextPid then 1 else 0, pid)

def rotate (nextPid : Nat) (pids : List Nat) : List Nat :=
  pids.insertionSort fun a b => pidOrder nextPid a ≤ pidOrder nextPid b

def rootCells (mine : List (Nat × DigestCell)) (pids : List Nat) : Except PyError (List Bytes) :=
  pids.mapM fun pid =>
    match mine.lookup pid with
    | none => .error (.keyError (toBE 8 pid))
    | some cell => cell.toBytes

def syncRootPage (pids : List Nat) : Ae Unit := do
  let mine ← roots c s.self pids
  let scope ← python (s.scope c pids)
  let cells ← python (rootCells mine pids)
  let diffs ← s.rpc c (roots c s.peer scope cells)
  let differing := ((diffs.map Prod.fst).filter fun pid => (mine.lookup pid).isSome).eraseDups
  tallied fun t => { t with
    rootsCompared := t.rootsCompared + pids.length
    pidsDiverged := t.pidsDiverged + differing.length }
  let w ← get
  each (rotate (w.shared.progress s.peer s.ref).nextPid differing) fun pid => do
    s.setNextPid pid
    s.syncPid c pid
    s.setPosition pid none
    s.setNextPid (pid + 1)

def syncRoots (pids : List Nat) : Ae Unit := do
  let w ← get
  each (chunks maxPidsPerRequest (rotate (w.shared.progress s.peer s.ref).nextPid pids))
    (s.syncRootPage c)

end PeerSync

end Tourillon
