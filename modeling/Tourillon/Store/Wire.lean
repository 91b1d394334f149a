import Tourillon.Storage.Clean

namespace Tourillon

open Endian Exceptional List

inductive Payload where
  | none
  | int (n : Nat)
  | str (s : String)
  | bytes (b : Bytes)
  | map (entries : List (String × Payload))

namespace Payload

def field (name : String) : Payload → Except PyError Payload
  | map entries =>
    match entries.lookup name with
    | some value => .ok value
    | Option.none => .error (.keyError (encodeUtf8 name))
  | _ => .error (.runtimeError "payload is not a mapping")

def asInt : Payload → Except PyError Nat
  | int n => .ok n
  | _ => .error (.runtimeError "payload is not an integer")

def asStr : Payload → Except PyError String
  | str s => .ok s
  | _ => .error (.runtimeError "payload is not a string")

def asBytes : Payload → Except PyError Bytes
  | bytes b => .ok b
  | _ => .error (.runtimeError "payload is not a byte string")

end Payload

def HLCTimestamp.toDict (t : HLCTimestamp) : Payload :=
  .map [("wall_ms", .int t.wallMs), ("counter", .int t.counter), ("node_id", .str t.nodeId)]

def HLCTimestamp.fromDict (data : Payload) : Except PyError HLCTimestamp := do
  let wallMs ← (← data.field "wall_ms").asInt
  let counter ← (← data.field "counter").asInt
  let nodeId ← (← data.field "node_id").asStr
  HLCTimestamp.make wallMs counter nodeId

def Address.toDict (a : Address) : Payload := .map [("key", .bytes a.key), ("namespace", .bytes a.ns)]

def Address.fromDict (data : Payload) : Except PyError Address := do
  let key ← (← data.field "key").asBytes
  let ns ← (← data.field "namespace").asBytes
  return ⟨key, ns⟩

def Key.toDict (k : Key) : Payload :=
  .map [("pid", .int k.pid), ("address", k.address.toDict), ("ts", k.ts.toDict)]

def Key.fromDict (data : Payload) : Except PyError Key := do
  let pid ← (← data.field "pid").asInt
  let address ← Address.fromDict (← data.field "address")
  let ts ← HLCTimestamp.fromDict (← data.field "ts")
  return ⟨pid, address, ts⟩

def Value.toDict (v : Value) : Payload := .map [("data", .bytes v.data), ("quorum_write", .int v.quorumWrite)]

def Value.fromDict (data : Payload) : Except PyError Value := do
  let content ← (← data.field "data").asBytes
  let quorumWrite ← (← data.field "quorum_write").asInt
  Value.make content quorumWrite

namespace TagKind

def name : TagKind → String
  | .live => "LIVE"
  | .tombstone => "TOMBSTONE"
  | .stale => "STALE"
  | .phantom => "PHANTOM"
  | .reserved => "RESERVED"
  | .metadata => "META"

def ofName (s : String) : Except PyError TagKind :=
  match [live, tombstone, stale, phantom, reserved, metadata].find? fun kind => kind.name = s with
  | some kind => .ok kind
  | none => .error (.keyError (encodeUtf8 s))

end TagKind

def TagPayload.toDict (p : TagPayload) : Payload :=
  .map [("sub", match p.sub with
    | some sub => .str sub.name
    | none => .none), ("payload", .bytes p.payload)]

def TagPayload.fromDict (data : Payload) : Except PyError TagPayload := do
  let sub ← match ← data.field "sub" with
    | .none => pure none
    | named => some <$> (named.asStr >>= TagKind.ofName)
  let payload ← (← data.field "payload").asBytes
  return ⟨sub, payload⟩

def Tag.toDict (t : Tag) : Payload := .map [("kind", .str t.kind.name), ("payload", t.payload.toDict)]

def Tag.fromDict (data : Payload) : Except PyError Tag := do
  let kind ← (← data.field "kind").asStr >>= TagKind.ofName
  let payload ← TagPayload.fromDict (← data.field "payload")
  return ⟨kind, payload⟩

def Record.toDict (r : Record) : Payload :=
  .map [("key", r.key.toDict), ("value", r.value.toDict), ("tag", r.tag.toDict)]

def Record.fromDict (data : Payload) : Except PyError Record := do
  let key ← Key.fromDict (← data.field "key")
  let value ← Value.fromDict (← data.field "value")
  let tag ← Tag.fromDict (← data.field "tag")
  return ⟨⟨key, tag⟩, value⟩

def encodeRecord (r : Record) : Except PyError (List Bytes) := do
  let key ← r.key.toBytes .tags
  let value ← r.value.toBytes
  return [key, r.tag.toBytes, value]

def decodeRecord : List Bytes → Except PyError Record
  | [key, tag, value] => do
    let key ← Key.fromBytes .tags key
    let tag ← Tag.fromBytes tag
    let value ← Value.fromBytes value
    return ⟨⟨key, tag⟩, value⟩
  | _ => .error (.valueError "record must be a [key, tag, value] triple")

@[simp] theorem HLCTimestamp.fromDict_toDict (t : HLCTimestamp) : fromDict t.toDict = .ok t := by
  obtain ⟨wallMs, counter, nodeId, size⟩ := t
  simp [fromDict, toDict, Payload.field, Payload.asInt, Payload.asStr, lookup_cons, make, size, bind, Except.bind]

@[simp] theorem Address.fromDict_toDict (a : Address) : fromDict a.toDict = .ok a := by
  simp [fromDict, toDict, Payload.field, Payload.asBytes, lookup_cons, bind, Except.bind, pure, Except.pure]

@[simp] theorem Key.fromDict_toDict (k : Key) : fromDict k.toDict = .ok k := by
  simp [fromDict, toDict, Payload.field, Payload.asInt, lookup_cons, bind, Except.bind, pure, Except.pure]

@[simp] theorem Value.fromDict_toDict (v : Value) : fromDict v.toDict = .ok v := by
  obtain ⟨data, quorumWrite, size⟩ := v
  simp [fromDict, toDict, Payload.field, Payload.asBytes, Payload.asInt, lookup_cons, make, size, bind, Except.bind]

@[simp] theorem TagKind.ofName_name (kind : TagKind) : ofName kind.name = .ok kind := by
  cases kind <;> rfl

@[simp] theorem TagPayload.fromDict_toDict (p : TagPayload) : fromDict p.toDict = .ok p := by
  obtain ⟨sub, payload⟩ := p
  cases sub with
  | none =>
    simp [fromDict, toDict, Payload.field, Payload.asBytes, lookup_cons, bind, Except.bind, pure, Except.pure]
  | some sub =>
    simp [fromDict, toDict, Payload.field, Payload.asBytes, Payload.asStr, lookup_cons, bind,
      Except.bind, pure, Except.pure, Functor.map, Except.map]

@[simp] theorem Tag.fromDict_toDict (t : Tag) : fromDict t.toDict = .ok t := by
  simp [fromDict, toDict, Payload.field, Payload.asStr, lookup_cons, bind, Except.bind, pure, Except.pure]

theorem Record.fromDict_toDict (r : Record) : fromDict r.toDict = .ok r := by
  simp [fromDict, toDict, Payload.field, lookup_cons, bind, Except.bind, pure, Except.pure]

theorem decodeRecord_encodeRecord {r : Record} (h : r.tag.Readable) {parts : List Bytes}
    (hp : encodeRecord r = .ok parts) : decodeRecord parts = .ok r := by
  simp only [encodeRecord, bind_eq_ok, Key.toBytes_tags_eq_ok, Value.toBytes_eq_ok, pure_eq_ok] at hp
  obtain ⟨_, ⟨hkey, rfl⟩, _, ⟨hvalue, rfl⟩, rfl⟩ := hp
  simp [decodeRecord, Key.fromBytes_tags_encode hkey, Tag.fromBytes_toBytes h,
    Value.fromBytes_encode hvalue, bind, Except.bind, pure, Except.pure]

inductive Message where
  | record (r : Record)
  | dict (data : Payload)
  | entry (parts : List Bytes)

inductive Codec where
  | plain
  | dict
  | entry
  deriving DecidableEq, Repr

namespace Message

def decode : Message → Except PyError Record
  | record r => .ok r
  | dict data => Record.fromDict data
  | entry parts => decodeRecord parts

def encode (r : Record) : Codec → Except PyError Message
  | .plain => .ok (record r)
  | .dict => .ok (dict r.toDict)
  | .entry => entry <$> encodeRecord r

theorem decode_encode {r : Record} (h : r.tag.Readable) {codec : Codec} {m : Message}
    (hm : encode r codec = .ok m) : m.decode = .ok r := by
  cases codec with
  | plain =>
    cases hm
    rfl
  | dict =>
    cases hm
    exact r.fromDict_toDict
  | entry =>
    cases hparts : encodeRecord r with
    | error e =>
      rw [encode, hparts] at hm
      cases hm
    | ok parts =>
      rw [encode, hparts] at hm
      cases hm
      exact decodeRecord_encodeRecord h hparts

end Message

end Tourillon
