import Tourillon.AntiEntropy.World

namespace Tourillon

open Endian Prog Sequence

def applyBatch : Nat := 64

def applyBatchBytes : Nat := 8 * 1024 * 1024

def scanPage : Nat := 4096

def recordFraming : Nat := 16

def recordSize (r : Record) : Nat :=
  (r.key.encode .tags).length + r.tag.toBytes.length + r.value.data.length + 1 + recordFraming

structure PushResult where
  applied : Nat := 0
  alreadyPresent : Nat := 0
  ignoredRetention : Nat := 0
  deriving DecidableEq, Repr

namespace PushResult

def count (r : PushResult) : WriteDisposition → PushResult
  | .applied => { r with applied := r.applied + 1 }
  | .alreadyPresent => { r with alreadyPresent := r.alreadyPresent + 1 }
  | .ignoredRetention => { r with ignoredRetention := r.ignoredRetention + 1 }

def deliveryCount (r : PushResult) : Nat := r.applied + r.alreadyPresent + r.ignoredRetention

end PushResult

structure BatchAcc where
  done : List (List Record) := []
  current : List Record := []
  size : Nat := 0

def BatchAcc.add (acc : BatchAcc) (r : Record) : BatchAcc :=
  if acc.current ≠ [] ∧
      (acc.current.length = applyBatch ∨ acc.size + recordSize r > applyBatchBytes) then
    { done := acc.done ++ [acc.current], current := [r], size := recordSize r }
  else { acc with current := acc.current ++ [r], size := acc.size + recordSize r }

def batches (records : List Record) : List (List Record) :=
  let acc := records.foldl BatchAcc.add {}
  if acc.current = [] then acc.done else acc.done ++ [acc.current]

structure ReadAcc where
  records : List Record := []
  consumed : Nat := 0
  size : Nat := 0

def ReadAcc.add (maxBytes : Nat) : List (Option Record) → ReadAcc → ReadAcc × Bool
  | [], acc => (acc, false)
  | none :: found, acc => ReadAcc.add maxBytes found { acc with consumed := acc.consumed + 1 }
  | some r :: found, acc =>
    if r.owned then
      if acc.records ≠ [] ∧ acc.size + recordSize r > maxBytes then (acc, true)
      else ReadAcc.add maxBytes found
        { records := acc.records ++ [r]
          consumed := acc.consumed + 1
          size := acc.size + recordSize r }
    else ReadAcc.add maxBytes found { acc with consumed := acc.consumed + 1 }

namespace LocalStore

variable (c : Cluster) (node : String)

def groupOf (tagsKey : Bytes) : Nat := c.groupFor (ofBE (tagsKey.take 4))

def roots (pids : List Nat) : Ae (List (Nat × DigestCell)) := do
  let cells ← collect (groupRuns c.groupFor (pids.insertionSort (· ≤ ·))) fun run => do
    let values ← c.foldSession node run.1 (fun g => g.roots run.2)
      fun _ g => run.2.map fun pid => g.counted (rootRef pid)
    pure (run.2.zip values)
  pure cells.flatten

def rootPage (after : Option Nat) (limit : Nat) : Ae (List (Nat × DigestCell) × Option Nat) :=
  c.loop (fun (group, roots, cursor) =>
    if c.partitioner.totalGroups ≤ group then pure (.inr (roots, none))
    else if roots.length < limit then do
      let (page, more) ← c.foldSession node group
        (fun g => g.rootPage cursor (limit - roots.length))
        fun page g => page.1.map fun e => g.counted (rootRef e.1)
      let roots := roots ++ page
      let cursor := (page.getLast?.map Prod.fst).or cursor
      if more.isNone then
        if limit ≤ roots.length then pure (.inr (roots, roots.getLast?.map Prod.fst))
        else pure (.inl (group + 1, roots, cursor))
      else pure (.inl (group, roots, cursor))
    else match roots.getLast? with
      | none => raise (.python .indexError)
      | some e => pure (.inr (roots, some e.1)))
    ((after.map fun a => c.groupFor (a + 1)).getD 0, ([] : List (Nat × DigestCell)), after)

def bucketPage (pid : Nat) (after : Option Nat) (limit : Nat) : Ae (List (Nat × DigestCell) × Option Nat) :=
  c.foldSession node (c.groupFor pid) (fun g => g.bucketPage pid after limit)
    fun page g => page.1.map fun e => g.counted (bucketRef pid e.1)

def bucketsUntil (pid : Nat) (after upto : Option Nat) (limit : Nat) : Ae (List (Nat × DigestCell)) :=
  c.loop (fun (cells, cursor) => do
    let (page, more) ← bucketPage c node pid cursor limit
    let kept := page.takeWhile fun e => upto.all fun u => e.1 ≤ u
    if kept.length < page.length then pure (.inr (cells ++ kept))
    else match more with
      | none => pure (.inr (cells ++ kept))
      | some next => do
        c.interfere
        pure (.inl (cells ++ kept, some next))) ([], after)

def rangeDigest [Blake2b] (start stop : Bytes) : Ae DigestCell :=
  c.loop (fun (cell, folded, cursor) => do
    let (keys, next) ← c.readSession node (groupOf c start) fun g => g.ownedKeys cursor stop scanPage
    let cell := keys.foldl (fun cell key => cell + DigestCell.of key) cell
    let folded := folded ++ keys
    c.interfere
    match next with
    | none => do
      Cluster.noteFolds [folded.toFinset]
      pure (.inr cell)
    | some next => pure (.inl (cell, folded, next))) (0, ([] : List Key), start)

def keys (start stop : Bytes) (limit : Nat) : Ae (List Key × Option Bytes) :=
  c.readSession node (groupOf c start) fun g => g.ownedKeys start stop limit

def read (pid : Nat) (keys : List Key) (maxBytes : Nat) : Ae (List Record × Nat) :=
  c.loop (fun (rest, acc) =>
    match rest with
    | [] => pure (.inr (acc.records, acc.consumed))
    | chunk :: rest => do
      let found ← c.readSession node (c.groupFor pid) fun g => g.getMany chunk
      match ReadAcc.add maxBytes found acc with
      | (acc, true) => pure (.inr (acc.records, acc.consumed))
      | (acc, false) => pure (.inl (rest, acc)))
    (chunks applyBatch keys, ({} : ReadAcc))

def applyResult [Blake2b] (pid : Nat) (records : List Record) : Ae PushResult := do
  let outcomes ← collect (batches records) fun batch => do
    let outcomes ← c.writeSession node (c.groupFor pid) fun s => (c.policy node).apply s batch
    c.interfere
    pure outcomes
  pure (outcomes.flatten.foldl PushResult.count {})

def apply [Blake2b] (pid : Nat) (records : List Record) : Ae Nat := do
  let result ← applyResult c node pid records
  pure result.applied

end LocalStore

end Tourillon
