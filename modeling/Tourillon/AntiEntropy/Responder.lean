import Tourillon.AntiEntropy.LocalStore

namespace Tourillon

open Endian Prog Cluster LocalStore

def maxPidsPerRequest : Nat := 1 <<< 17

def maxKeysPerRequest : Nat := 1 <<< 14

def maxPageLimit : Nat := 1 <<< 14

def maxBatchBytes : Nat := 18 * 1024 * 1024 - 1024 * 1024

def maxRetentionVersions : Nat := 64

structure Scope where
  pids : List Nat
  view : BitVec 128
  retentionVersions : Nat
  deriving DecidableEq, Repr

namespace Scope

def validate (s : Scope) : Except PyError Unit :=
  if s.pids.length > maxPidsPerRequest then
    .error (.valueError s!"pids holds more than {maxPidsPerRequest} entries")
  else if s.pids = [] then
    .error (.valueError "pids must be a non-empty list of integers >= 0")
  else if s.retentionVersions < 1 then
    .error (.valueError "retention_versions must be an integer >= 1")
  else if s.retentionVersions > maxRetentionVersions then
    .error (.valueError "retention_versions exceeds 64")
  else .ok ()

def pid (s : Scope) : Except PyError Nat :=
  match s.pids with
  | [pid] => .ok pid
  | _ => .error (.valueError "request must address exactly one partition")

end Scope

def clampLimit (limit : Nat) : Except PyError Nat :=
  if limit < 1 then .error (.valueError "limit must be an integer >= 1")
  else .ok (min limit maxPageLimit)

def bounds (pid : Nat) (start stop : Bytes) : Except PyError Unit := do
  let pre ← intToBytes pid 4
  if ¬ (pre.isPrefixOf start && pre.isPrefixOf stop) ∨ stop ≤ start then
    .error (.valueError "start and stop must bound a range within the partition")
  else .ok ()

namespace Responder

variable [Blake2b] (c : Cluster) (node : String)

def admissible (sh : Shared) (scope : Scope) (write : Bool) : Except AeError Unit :=
  if scope.retentionVersions ≠ (c.policy node).versions then
    .error (.rejected .invalid "replicas have different retention policies")
  else match (sh.nodes node).running, (sh.nodes node).tracker.view with
    | true, some view =>
      if ¬ view.covers scope.pids then .error (.rejected .invalid "unknown partition")
      else match view.viewHash scope.pids with
        | .error e => .error (.python e)
        | .ok hash =>
          if hash ≠ scope.view then .error (.rejected .staleView "replica views differ")
          else if write ∧ ¬ scope.pids.all (fun pid => view.isReplica pid node) then
            .error (.rejected .notReplica "not a replica of every partition")
          else .ok ()
    | _, _ => .error (.rejected .notReady "anti-entropy is not serving")

variable (scope : Scope)

def admitScope (write : Bool) : Ae Unit := do
  let w ← get
  lift (admissible c node w.shared scope write)

def roots (cells : List Bytes) : Ae (List (Nat × Bytes)) := do
  python scope.validate
  check (cells.length ≠ scope.pids.length) (.python (.valueError "cells must match pids one to one"))
  admitScope c node scope false
  let mine ← LocalStore.roots c node scope.pids
  python ((scope.pids.zip cells).filterMapM fun (pid, theirs) => do
    match mine.lookup pid with
    | none => .error (.keyError (toBE 8 pid))
    | some cell =>
      let bytes ← cell.toBytes
      return if bytes ≠ theirs then some (pid, bytes) else none)

def buckets (after : Option Nat) (limit : Nat) : Ae (List (Nat × Bytes) × Option Nat) := do
  python scope.validate
  let pid ← python scope.pid
  let limit ← python (clampLimit limit)
  admitScope c node scope false
  let (cells, cursor) ← bucketPage c node pid after limit
  let encoded ← python (cells.mapM fun (bucket, cell) => do
    let bytes ← cell.toBytes
    return (bucket, bytes))
  pure (encoded, cursor)

def range (start stop : Bytes) : Ae Bytes := do
  python scope.validate
  let pid ← python scope.pid
  python (bounds pid start stop)
  admitScope c node scope false
  let cell ← rangeDigest c node start stop
  python cell.toBytes

def keys (start stop : Bytes) (limit : Nat) : Ae (List Bytes × Option Bytes) := do
  python scope.validate
  let pid ← python scope.pid
  python (bounds pid start stop)
  let limit ← python (clampLimit limit)
  admitScope c node scope false
  let (keys, cursor) ← LocalStore.keys c node start stop limit
  let raw ← python (keys.mapM (Key.toBytes .tags))
  pure (raw, cursor)

def fetch (raw : List Bytes) (maxBytes : Nat) : Ae (List Record × Nat) := do
  python scope.validate
  let pid ← python scope.pid
  let pre ← python (intToBytes pid 4)
  check (raw.length > maxKeysPerRequest)
    (.python (.valueError s!"keys holds more than {maxKeysPerRequest} entries"))
  check (raw = [] ∨ ¬ raw.all fun k => pre.isPrefixOf k)
    (.python (.valueError "keys must be a non-empty list within the partition"))
  check (maxBytes < 1) (.python (.valueError "max_bytes must be an integer >= 1"))
  admitScope c node scope false
  let keys ← python (raw.mapM (Key.fromBytes .tags))
  let (records, consumed) ← read c node pid keys (min maxBytes maxBatchBytes)
  pure (records, max 1 consumed)

def pushResult (records : List Record) : Ae PushResult := do
  python scope.validate
  let pid ← python scope.pid
  check (records.length > maxKeysPerRequest)
    (.python (.valueError s!"records holds more than {maxKeysPerRequest} entries"))
  check (records = [] ∨ ¬ records.all fun r => r.key.pid = pid)
    (.python (.valueError "records must be a non-empty list within the partition"))
  admitScope c node scope true
  applyResult c node pid (records.filter Record.owned)

end Responder

end Tourillon
