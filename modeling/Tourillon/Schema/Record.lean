import Tourillon.Schema.Key

namespace Tourillon

open Endian Exceptional BytesWalker

inductive TagKind where
  | live
  | tombstone
  | stale
  | phantom
  | reserved
  | metadata
  deriving DecidableEq, Repr

namespace TagKind

def value : TagKind → UInt8
  | .live => 0
  | .tombstone => 1
  | .stale => 4
  | .phantom => 5
  | .reserved => 6
  | .metadata => 7

def ofByte (b : UInt8) : Except PyError TagKind :=
  if b = 0 then .ok .live
  else if b = 1 then .ok .tombstone
  else if b = 4 then .ok .stale
  else if b = 5 then .ok .phantom
  else if b = 6 then .ok .reserved
  else if b = 7 then .ok .metadata
  else .error (.valueError s!"{b.toNat} is not a valid TagKind")

def owned : TagKind → Bool
  | .live => true
  | .tombstone => true
  | _ => false

theorem ofByte_value (k : TagKind) : ofByte k.value = .ok k := by cases k <;> rfl

end TagKind

structure TagPayload where
  sub : Option TagKind := none
  payload : Bytes := []
  deriving DecidableEq, Repr

namespace TagPayload

def toBytes (p : TagPayload) : Bytes := (p.sub.map TagKind.value).toList ++ p.payload

def fromBytes : Bytes → Except PyError TagPayload
  | [] => .ok {}
  | b :: rest => do
    let sub ← TagKind.ofByte b
    return ⟨some sub, rest⟩

end TagPayload

structure Tag where
  kind : TagKind
  payload : TagPayload := {}
  deriving DecidableEq, Repr

namespace Tag

def toBytes (t : Tag) : Bytes := t.kind.value :: t.payload.toBytes

def fromBytes : Bytes → Except PyError Tag
  | [] => .error (.valueError "Input bytes too short to contain Tag")
  | b :: rest => do
    let kind ← TagKind.ofByte b
    let payload ← TagPayload.fromBytes rest
    return ⟨kind, payload⟩

def Readable (t : Tag) : Prop := t.payload.sub = none → t.payload.payload = []

instance (t : Tag) : Decidable t.Readable := inferInstanceAs (Decidable (_ → _))

theorem fromBytes_toBytes {t : Tag} (h : t.Readable) : fromBytes t.toBytes = .ok t := by
  obtain ⟨kind, sub, payload⟩ := t
  cases sub with
  | none =>
    have hp : payload = [] := h rfl
    subst hp
    simp [fromBytes, toBytes, TagPayload.toBytes, TagPayload.fromBytes, TagKind.ofByte_value, bind,
      Except.bind, pure, Except.pure]
  | some s =>
    simp [fromBytes, toBytes, TagPayload.toBytes, TagPayload.fromBytes, TagKind.ofByte_value, bind,
      Except.bind, pure, Except.pure]

end Tag

def ownedTagValue : Bytes → Bool
  | [] => false
  | b :: _ => b = TagKind.live.value || b = TagKind.tombstone.value

@[simp] theorem ownedTagValue_toBytes (t : Tag) : ownedTagValue t.toBytes = t.kind.owned := by
  obtain ⟨kind, payload⟩ := t
  cases kind <;> rfl

theorem ownedTagValue_of_fromBytes {b : Bytes} {t : Tag} (h : Tag.fromBytes b = .ok t) :
    ownedTagValue b = t.kind.owned := by
  cases b with
  | nil => simp [Tag.fromBytes] at h
  | cons c rest =>
    simp only [Tag.fromBytes, bind_eq_ok, pure_eq_ok] at h
    obtain ⟨kind, hk, payload, _, rfl⟩ := h
    unfold TagKind.ofByte at hk
    split_ifs at hk with h0 h1 h4 h5 h6 h7 <;> cases hk <;> subst_vars <;> rfl

def maxValueDataLen : Nat := 16 * 1024 * 1024

structure Value where
  data : Bytes
  quorumWrite : Nat
  size : data.length ≤ maxValueDataLen
  deriving DecidableEq, Repr

namespace Value

def make (data : Bytes) (quorumWrite : Nat) : Except PyError Value :=
  if h : data.length ≤ maxValueDataLen then .ok ⟨data, quorumWrite, h⟩
  else .error (.overflowError s!"Value.data length {data.length} exceeds {maxValueDataLen} bytes")

def encode (v : Value) : Bytes := toBE 1 v.quorumWrite ++ v.data

def toBytes (v : Value) : Except PyError Bytes := do
  let quorum ← intToBytes v.quorumWrite 1
  return quorum ++ v.data

def fromBytes : Bytes → Except PyError Value
  | [] => .error (.valueError "Input bytes too short to contain quorum_write")
  | q :: data => make data q.toNat

theorem toBytes_eq_ok {v : Value} {b : Bytes} : v.toBytes = .ok b ↔ v.quorumWrite < 256 ∧ b = v.encode := by
  simp only [toBytes, bind_eq_ok, intToBytes_eq_ok, pure_eq_ok]
  constructor
  · rintro ⟨_, ⟨hq, rfl⟩, rfl⟩
    exact ⟨hq, rfl⟩
  · rintro ⟨hq, rfl⟩
    exact ⟨_, ⟨hq, rfl⟩, rfl⟩

theorem fromBytes_encode {v : Value} (h : v.quorumWrite < 256) : fromBytes v.encode = .ok v := by
  have hq : (UInt8.ofNat v.quorumWrite).toNat = v.quorumWrite := by simpa using Nat.mod_eq_of_lt h
  simp [encode, toBE, fromBytes, make, v.size, hq]

end Value

structure KeyTag where
  key : Key
  tag : Tag
  deriving DecidableEq, Repr

structure Record extends KeyTag where
  value : Value
  deriving DecidableEq, Repr

namespace Record

def owned (r : Record) : Bool := r.tag.kind.owned

def toBytes (ks : Keyspace) (r : Record) : Except PyError Bytes := do
  let key ← r.key.toBytes ks
  let value ← r.value.toBytes
  return key ++ (value ++ r.tag.toBytes)

end Record

inductive MetaKind where
  | obligation
  | digest
  deriving DecidableEq, Repr

def MetaKind.value : MetaKind → UInt8
  | .obligation => 1
  | .digest => 2

structure ObligationKey where
  target : String
  key : Key
  nonempty : target ≠ ""
  size : (encodeUtf8 target).length ≤ maxNodeIdLenBytes
  deriving Repr

instance : DecidableEq ObligationKey := fun a b =>
  decidable_of_iff (a.target = b.target ∧ a.key = b.key) (by
    cases a
    cases b
    rw [ObligationKey.mk.injEq])

namespace ObligationKey

variable {o : ObligationKey}

def make (target : String) (key : Key) : Except PyError ObligationKey :=
  if hn : target = "" then .error (.valueError "obligation target must be a non-empty string")
  else if hs : (encodeUtf8 target).length ≤ maxNodeIdLenBytes then .ok ⟨target, key, hn, hs⟩
  else .error (.valueError s!"node_id must be <= {maxNodeIdLenBytes} bytes (utf-8)")

section

variable (o : ObligationKey)

def requiredTs : HLCTimestamp := o.key.ts

def address : PartitionAddress := o.key.partitionAddress

def targetPrefix : Bytes :=
  MetaKind.obligation.value ::
    (toBE 2 (encodeUtf8 o.target).length ++ encodeUtf8 o.target)

def encode : Bytes := o.targetPrefix ++ o.key.encode .tags

def toBytes : Except PyError Bytes := do
  let key ← o.key.toBytes .tags
  return o.targetPrefix ++ key

end

def fromBytes (encoded : Bytes) : Except PyError ObligationKey := do
  let (kind, w) ← (BytesWalker.start encoded).read 1 "metadata kind"
  if kind ≠ [MetaKind.obligation.value] then
    .error (.valueError "metadata key is not a replication obligation")
  else do
    let (raw, w) ← w.readField "obligation target" 2
    let target ← decodeUtf8 raw
    let (key, w) ← Key.walk .tags w
    if w.readRemaining.1 ≠ [] then
      .error (.valueError "obligation key contains trailing bytes")
    else make target key

theorem make_eq_ok {target : String} {key : Key} (h : make target key = .ok o) :
    o.target = target ∧ o.key = key := by
  unfold make at h
  split_ifs at h
  cases h
  exact ⟨rfl, rfl⟩

theorem target_length_lt (o : ObligationKey) : (encodeUtf8 o.target).length < 256 ^ 2 :=
  lt_of_le_of_lt o.size (by decide)

theorem toBytes_eq_ok {b : Bytes} : o.toBytes = .ok b ↔ o.key.Encodable ∧ b = o.encode := by
  simp only [toBytes, bind_eq_ok, Key.toBytes_tags_eq_ok, pure_eq_ok]
  constructor
  · rintro ⟨_, ⟨hk, rfl⟩, rfl⟩
    exact ⟨hk, rfl⟩
  · rintro ⟨hk, rfl⟩
    exact ⟨_, ⟨hk, rfl⟩, rfl⟩

theorem fromBytes_encode (h : o.key.Encodable) : fromBytes o.encode = .ok o := by
  have hf := readField_append 1 2 (encodeUtf8 o.target) (o.key.encode .tags)
    "obligation target" o.target_length_lt
  have hk := Key.walk_tags_encode h (1 + 2 + (encodeUtf8 o.target).length) []
  rw [List.append_nil] at hk
  have hr : BytesWalker.read 1 "metadata kind" (BytesWalker.start o.encode) =
      .ok ([MetaKind.obligation.value],
        ⟨1, toBE 2 (encodeUtf8 o.target).length ++ (encodeUtf8 o.target ++ o.key.encode .tags)⟩) := by
    simp [BytesWalker.read, BytesWalker.start, encode, targetPrefix]
  simp [fromBytes, hr, hf, hk, decodeUtf8_encodeUtf8, readRemaining, make, o.nonempty, o.size, bind, Except.bind]

theorem encode_inj {o' : ObligationKey} (h : o.key.Encodable) (h' : o'.key.Encodable)
    (he : o.encode = o'.encode) : o = o' := by
  have ho := fromBytes_encode h
  rw [he, fromBytes_encode h'] at ho
  exact (Except.ok.inj ho).symm

end ObligationKey

structure KVPair where
  key : Bytes
  value : Bytes
  keyspace : Keyspace
  deriving DecidableEq, Repr

namespace Sample

theorem size_a : (encodeUtf8 "a").length ≤ maxNodeIdLenBytes := by decide

theorem size_b : (encodeUtf8 "b").length ≤ maxNodeIdLenBytes := by decide

theorem named_b : "b" ≠ "" := by decide

theorem size_three : [(3 : UInt8)].length ≤ maxValueDataLen := by decide

end Sample

end Tourillon
