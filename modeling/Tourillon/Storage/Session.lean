import Tourillon.Storage.Transaction
import Tourillon.Storage.Digest

namespace Tourillon

open Endian Exceptional OrderedMap

def obligationPrefix : Bytes := [MetaKind.obligation.value]

def ownedKey (kv : Bytes × Bytes) : Option Key :=
  match Tag.fromBytes kv.2 with
  | .ok tag => if tag.kind.owned then (Key.fromBytes .tags kv.1).toOption else none
  | .error _ => none

def bucketBounds (pid bucket : Nat) : Except PyError (Bytes × Bytes) := do
  let pidBytes ← intToBytes pid pidSize
  let lo ← intToBytes (bucket <<< bucketShift) 8
  let hi ← intToBytes ((bucket + 1) <<< bucketShift) 8
  return (pidBytes ++ lo, pidBytes ++ hi)

def tagKv (r : Record) : Except PyError KVPair := do
  let key ← r.key.toBytes .tags
  return ⟨key, r.tag.toBytes, .tags⟩

def logKv (r : Record) : Except PyError KVPair := do
  let key ← r.key.toBytes .logs
  let value ← r.value.toBytes
  return ⟨key, value, .logs⟩

def tagPair (r : Record) : KVPair := ⟨r.key.encode .tags, r.tag.toBytes, .tags⟩

def logPair (r : Record) : KVPair := ⟨r.key.encode .logs, r.value.encode, .logs⟩

theorem tagKv_eq_ok {r : Record} {kv : KVPair} : tagKv r = .ok kv ↔ r.key.Encodable ∧ kv = tagPair r := by
  simp only [tagKv, bind_eq_ok, Key.toBytes_tags_eq_ok, pure_eq_ok]
  constructor
  · rintro ⟨_, ⟨hk, rfl⟩, rfl⟩
    exact ⟨hk, rfl⟩
  · rintro ⟨hk, rfl⟩
    exact ⟨_, ⟨hk, rfl⟩, rfl⟩

theorem logKv_eq_ok {r : Record} {kv : KVPair} :
    logKv r = .ok kv ↔ (r.key.Encodable ∧ r.value.quorumWrite < 256) ∧ kv = logPair r := by
  simp only [logKv, bind_eq_ok, Key.toBytes_logs_eq_ok, Value.toBytes_eq_ok, pure_eq_ok]
  constructor
  · rintro ⟨_, ⟨hk, rfl⟩, _, ⟨hq, rfl⟩, rfl⟩
    exact ⟨⟨hk, hq⟩, rfl⟩
  · rintro ⟨⟨hk, hq⟩, rfl⟩
    exact ⟨_, ⟨hk, rfl⟩, _, ⟨hq, rfl⟩, rfl⟩

def cell : Option Bytes → Except PyError DigestCell
  | none => .ok 0
  | some value => DigestCell.fromBytes value

def rootPid (metaKey : Bytes) : Nat := ofBE (metaKey.drop rootPrefix.length)

def bucketId (metaKey : Bytes) : Nat := ofBE (metaKey.drop (bucketPrefix.length + pidSize))

def recordAt (key : Key) (tag log : Option Bytes) : Except PyError (Option Record) :=
  match tag, log with
  | some tag, some log => do
    let tag ← Tag.fromBytes tag
    let value ← Value.fromBytes log
    return some ⟨⟨key, tag⟩, value⟩
  | _, _ => .ok none

namespace GroupStorage

variable (g : GroupStorage)

def identity (key : Key) : Except PyError (Option KeyTag) := do
  let tagKey ← key.toBytes .tags
  match g.get .tags tagKey with
  | none => .ok none
  | some value =>
    let tag ← Tag.fromBytes value
    return if tag.kind.owned then some ⟨key, tag⟩ else none

def latestIdentities (limit : Nat) (addr : PartitionAddress) : Except PyError (List KeyTag) := do
  let pre ← addr.toBytes
  let keys ← (g.keys .logs (some pre) none limit true).mapM (Key.fromBytes .logs)
  let identities ← keys.mapM g.identity
  return identities.reduceOption

def latestIdentitiesMany (addresses : List PartitionAddress) (limit : Nat) :
    Except PyError (List (PartitionAddress × List KeyTag)) :=
  addresses.eraseDups.mapM fun addr => do
    let identities ← g.latestIdentities limit addr
    return (addr, identities)

def logPage (after : Option Bytes) (limit : Nat) : Except PyError (List Key) :=
  (g.list .tags none after limit).mapM fun kv => Key.fromBytes .tags kv.1

def oldestKeys (addr : PartitionAddress) (limit : Nat) : Except PyError (List Key) := do
  let pre ← addr.toBytes
  (g.keys .logs (some pre) none limit).mapM (Key.fromBytes .logs)

def getMany (keys : List Key) : Except PyError (List (Option Record)) := do
  let refs ← keys.mapM fun key => do
    let tag ← key.toBytes .tags
    let log ← key.toBytes .logs
    return (key, tag, log)
  refs.mapM fun (key, tag, log) => recordAt key (g.get .tags tag) (g.get .logs log)

def read (key : Key) : Except PyError (Option Record) := do
  let records ← g.getMany [key]
  return records.headD none

def newest (addr : PartitionAddress) : Except PyError (Option Record) := do
  let pre ← addr.toBytes
  match g.last .logs pre with
  | none => .ok none
  | some kvLog =>
    let key ← Key.fromBytes .logs kvLog.1
    let tagKey ← key.toBytes .tags
    recordAt key (g.get .tags tagKey) (some kvLog.2)

def hasObligations : Bool := (g.last .metadata obligationPrefix).isSome

def obligationPage (start : Option Bytes) (limit : Nat) : Except PyError (List ObligationKey × Option Bytes) :=
  if limit < 1 then .error (.valueError "limit must be >= 1")
  else
    let page := g.list .metadata (some obligationPrefix) start limit
    let obligations := page.filterMap fun kv => (ObligationKey.fromBytes kv.1).toOption
    let cursor := if page.length = limit then page.getLast?.map Prod.fst else none
    .ok (obligations, cursor)

def roots (pids : List Nat) : Except PyError (List DigestCell) := do
  let refs ← pids.mapM rootKey
  refs.mapM fun ref => cell (g.get .metadata ref)

def cellPage (pre : Bytes) (start : Option Bytes) (idOf : Bytes → Nat) (limit : Nat) :
    Except PyError (List (Nat × DigestCell) × Option Nat) := do
  let page := g.list .metadata (some pre) start limit
  let cells ← page.mapM fun kv => do
    let c ← cell (some kv.2)
    return (idOf kv.1, c)
  let cursor := if page.length = limit then cells.getLast?.map Prod.fst else none
  return (cells, cursor)

def rootPage (after : Option Nat) (limit : Nat) : Except PyError (List (Nat × DigestCell) × Option Nat) :=
  if limit < 1 then .error (.valueError "limit must be >= 1")
  else do
    let start ← after.mapM rootKey
    g.cellPage rootPrefix start rootPid limit

def bucketPage (pid : Nat) (after : Option Nat) (limit : Nat) :
    Except PyError (List (Nat × DigestCell) × Option Nat) :=
  if limit < 1 then .error (.valueError "limit must be >= 1")
  else do
    let pidBytes ← intToBytes pid pidSize
    let start ← after.mapM (bucketKey pid)
    g.cellPage (bucketPrefix ++ pidBytes) start bucketId limit

def ownedKeys (start stop : Bytes) (limit : Nat) : Except PyError (List Key × Option Bytes) :=
  if limit < 1 then .error (.valueError "limit must be >= 1")
  else
    let page := g.list .tags (some (start.take pidSize)) (some start) limit
    let inside := page.takeWhile fun kv => kv.1 < stop
    let keys := inside.filterMap ownedKey
    if inside.length < page.length then .ok (keys, none)
    else .ok (keys, if page.length = limit then page.getLast?.map Prod.fst else none)

end GroupStorage

namespace GroupStorage

variable (g : GroupStorage)

def addVersion (g : GroupStorage) (r : Record) : GroupStorage where
  logs := g.logs.insertNew (r.key.encode .logs) r.value.encode
  tags := g.tags.insertNew (r.key.encode .tags) r.tag.toBytes
  metadata := g.metadata

def dropVersion (g : GroupStorage) (key : Key) : GroupStorage where
  logs := g.logs.erase (key.encode .logs)
  tags := g.tags.erase (key.encode .tags)
  metadata := g.metadata

@[simp] theorem addVersion_metadata (r : Record) : (g.addVersion r).metadata = g.metadata := rfl

@[simp] theorem dropVersion_metadata (key : Key) : (g.dropVersion key).metadata = g.metadata := rfl

theorem put_version (r : Record) : (g.put (tagPair r) false).1 = !g.tags.contains (r.key.encode .tags) ∧
      ((g.put (tagPair r) false).2.put (logPair r) false).2 = g.addVersion r := by
  have hn (m : Db) (k v : Bytes) : m.insertNew k v = if m.contains k then m else m.insert k v := by
    cases h : m.get k with
    | none => rw [insertNew_of_none h]; simp [contains, h]
    | some w => rw [insertNew_of_some h]; simp [contains, h]
  cases ht : g.tags.contains (r.key.encode .tags) <;> cases hl : g.logs.contains (r.key.encode .logs)
    <;> simp [put, tagPair, logPair, addVersion, db, withDb, hn, ht, hl]

theorem foldl_addVersion_metadata (records : List Record) : (records.foldl addVersion g).metadata = g.metadata := by
  induction records generalizing g with
  | nil => rfl
  | cons r records ih => rw [List.foldl_cons, ih, addVersion_metadata]

theorem foldl_dropVersion_metadata (keys : List Key) : (keys.foldl dropVersion g).metadata = g.metadata := by
  induction keys generalizing g with
  | nil => rfl
  | cons k keys ih => rw [List.foldl_cons, ih, dropVersion_metadata]

end GroupStorage

structure GroupSession where
  storage : GroupStorage
  deltas : OrderedMap Bytes DigestCell
  stored : OrderedMap Bytes DigestCell

namespace GroupSession

def start (g : GroupStorage) : GroupSession := ⟨g, ∅, ∅⟩

def unknownCells (s : GroupSession) (keys : List Key) : Except PyError (List Bytes) := do
  let refs ← keys.mapM cellKeys
  let unknown := (refs.flatMap fun (root, bucket) => [root, bucket]).filter
    fun ref => !s.stored.contains ref
  return unknown.eraseDups.insertionSort (· ≤ ·)

def loadCells (s : GroupSession) (refs : List Bytes) : Except PyError GroupSession := do
  let cells ← refs.mapM fun ref => do
    let c ← cell (s.storage.get .metadata ref)
    return (ref, c)
  return { s with stored := cells.foldl (fun m e => m.insert e.1 e.2) s.stored }

def adjust (m : OrderedMap Bytes DigestCell) (ref : Bytes) (f : DigestCell → DigestCell) :
    OrderedMap Bytes DigestCell :=
  m.insert ref (f ((m.get ref).getD 0))

def putVersions : List (KVPair × KVPair) → GroupStorage → List Bool × GroupStorage
  | [], g => ([], g)
  | (tag, log) :: rest, g =>
    let (ok, g) := g.put tag false
    let (_, g) := g.put log false
    let (written, g) := putVersions rest g
    (ok :: written, g)

def newFlags : List Record → GroupStorage → List Bool
  | [], _ => []
  | r :: records, g => (!g.tags.contains (r.key.encode .tags)) :: newFlags records (g.addVersion r)

theorem putVersions_eq (records : List Record) (g : GroupStorage) :
    putVersions (records.map fun r => (tagPair r, logPair r)) g =
      (newFlags records g, records.foldl GroupStorage.addVersion g) := by
  induction records generalizing g with
  | nil => rfl
  | cons r records ih =>
    obtain ⟨hok, hg⟩ := g.put_version r
    simp only [List.map_cons, putVersions, hg, ih, hok, newFlags, List.foldl_cons]

def insert (s : GroupSession) (records : List Record) (tags : List KVPair) :
    Except PyError (List Bool × GroupSession) := do
  let refs ← s.unknownCells ((records.filter Record.owned).map fun r => r.key)
  let logs ← records.mapM logKv
  let (written, storage) := putVersions (tags.zip logs) s.storage
  let s ← loadCells { s with storage } refs
  return (written, s)

variable [Blake2b]

section

variable (s : GroupSession)

def fold (key : Key) : Except PyError GroupSession := do
  let c := DigestCell.of key
  let (root, bucket) ← cellKeys key
  return { s with deltas := adjust (adjust s.deltas root (· + c)) bucket (· + c) }

def putMany (records : List Record) : Except PyError (List Bool × GroupSession) :=
  if records = [] then .ok ([], s)
  else do
    let tags ← records.mapM tagKv
    let (written, s) ← s.insert records tags
    let s ← (records.zip written).foldlM
      (fun s (r, ok) => if ok && r.owned then s.fold r.key else .ok s) s
    return (written, s)

def put (record : Record) : Except PyError (Bool × GroupSession) := do
  let (written, s) ← s.putMany [record]
  return (written.headD false, s)

def removeRecord (key : Key) : Except PyError GroupSession := do
  let log ← key.toBytes .logs
  let tag ← key.toBytes .tags
  let (root, bucket) ← cellKeys key
  let c := DigestCell.of key
  return { s with
    storage := (s.storage.delete .logs log).delete .tags tag
    deltas := adjust (adjust s.deltas root (· - c)) bucket (· - c) }

def removeRecords (keys : List Key) : Except PyError GroupSession := do
  let refs ← s.unknownCells keys
  let s ← s.loadCells refs
  keys.foldlM removeRecord s

end

def removable (g : GroupStorage) (key : Key) : Except PyError (Option (Key × Nat)) := do
  match ← g.read key with
  | none => return none
  | some record =>
    if record.owned then
      let tagBytes ← record.toBytes .tags
      let logBytes ← record.key.toBytes .logs
      return some (key, tagBytes.length + logBytes.length)
    else return none

section

variable (s : GroupSession)

def remove (keys : List Key) (dryRun : Bool := false) : Except PyError ((Nat × Nat) × GroupSession) := do
  let found ← keys.eraseDups.mapM (removable s.storage)
  let candidates := found.reduceOption
  let size := (candidates.map Prod.snd).sum
  if dryRun then return ((candidates.length, size), s)
  else do
    let s ← s.removeRecords (candidates.map Prod.fst)
    return ((candidates.length, size), s)

def putObligations (obligations : List ObligationKey) : Except PyError GroupSession := do
  let refs ← obligations.mapM ObligationKey.toBytes
  return { s with
    storage := refs.foldl (fun g ref => (g.put ⟨ref, [], .metadata⟩).2) s.storage }

def removeObligations (obligations : List ObligationKey) : Except PyError GroupSession := do
  let refs ← obligations.mapM ObligationKey.toBytes
  return { s with storage := refs.foldl (fun g ref => g.delete .metadata ref) s.storage }

def update (e : Bytes × DigestCell) : Except PyError (Bytes × Option Bytes) :=
  match s.stored.get e.1 with
  | none => .error (.keyError e.1)
  | some c =>
    if (c + e.2).isEmpty then .ok (e.1, none)
    else do
      let value ← (c + e.2).toBytes
      return (e.1, some value)

end

def writeCell (g : GroupStorage) (u : Bytes × Option Bytes) : GroupStorage :=
  match u.2 with
  | none => g.delete .metadata u.1
  | some value => (g.put ⟨u.1, value, .metadata⟩).2

def flush (s : GroupSession) : Except PyError GroupSession := do
  let updates ← s.deltas.entries.mapM s.update
  return { s with storage := updates.foldl writeCell s.storage }

end GroupSession

def GroupSessionManager.session [Blake2b] {α : Type} (body : GroupSession → Except PyError (α × GroupSession))
    (commit : Except PyError Unit) (g : GroupStorage) : Except PyError α × GroupStorage :=
  match (do
    let (a, s) ← body (.start g)
    let s ← s.flush
    commit
    return (a, s.storage)) with
  | .ok (a, g') => (.ok a, g')
  | .error e => (.error e, g)

structure Transaction (Call : Type) where
  calls : List Call
  raised : Option PyError
  commit : Except PyError Unit

namespace Transaction

variable [Blake2b] {Call : Type} (exec : GroupSession → Call → Except PyError GroupSession)

def body (t : Transaction Call) (s : GroupSession) : Except PyError (Unit × GroupSession) := do
  let s ← t.calls.foldlM exec s
  match t.raised with
  | some e => .error e
  | none => return ((), s)

def run (t : Transaction Call) (g : GroupStorage) : Except PyError Unit × GroupStorage :=
  GroupSessionManager.session (t.body exec) t.commit g

def runAll (ts : List (Transaction Call)) (g : GroupStorage) : GroupStorage :=
  ts.foldl (fun g t => (t.run exec g).2) g

end Transaction

end Tourillon
