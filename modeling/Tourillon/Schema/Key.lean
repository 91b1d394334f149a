import Tourillon.Library.Exceptional
import Tourillon.Schema.Codec
import Mathlib.Data.Prod.Lex
import Mathlib.Data.String.Basic

namespace Tourillon

open Endian Exceptional BytesWalker List

structure HLCTimestamp where
  wallMs : Nat
  counter : Nat
  nodeId : String
  size : (encodeUtf8 nodeId).length ≤ maxNodeIdLenBytes
  deriving DecidableEq, Repr

namespace HLCTimestamp

variable {t : HLCTimestamp}

def rank (t : HLCTimestamp) : ℕ ×ₗ ℕ ×ₗ String := toLex (t.wallMs, toLex (t.counter, t.nodeId))

theorem rank_injective : Function.Injective rank := by
  rintro ⟨w, c, n, _⟩ ⟨w', c', n', _⟩ h
  simp only [rank, EmbeddingLike.apply_eq_iff_eq, Prod.mk.injEq] at h
  obtain ⟨rfl, rfl, rfl⟩ := h
  rfl

instance : LinearOrder HLCTimestamp := LinearOrder.lift' rank rank_injective

def make (wallMs counter : Nat) (nodeId : String) : Except PyError HLCTimestamp :=
  if h : (encodeUtf8 nodeId).length ≤ maxNodeIdLenBytes then .ok ⟨wallMs, counter, nodeId, h⟩
  else .error (.valueError s!"node_id must be <= {maxNodeIdLenBytes} bytes (utf-8)")

theorem size_empty : (encodeUtf8 "").length ≤ maxNodeIdLenBytes := by decide

def Encodable (t : HLCTimestamp) : Prop := t.wallMs < 256 ^ 8 ∧ t.counter < 256 ^ 2

instance (t : HLCTimestamp) : Decidable t.Encodable := inferInstanceAs (Decidable (_ ∧ _))

def encode (t : HLCTimestamp) : Bytes :=
  toBE 8 t.wallMs ++ (toBE 2 t.counter ++ (toBE 2 (encodeUtf8 t.nodeId).length ++ encodeUtf8 t.nodeId))

def toBytes (t : HLCTimestamp) : Except PyError Bytes := do
  let nodeId := encodeUtf8 t.nodeId
  let wallMs ← intToBytes t.wallMs 8
  let counter ← intToBytes t.counter 2
  let nodeIdLen ← intToBytes nodeId.length 2
  return wallMs ++ (counter ++ (nodeIdLen ++ nodeId))

def walk (w : BytesWalker) : Except PyError (HLCTimestamp × BytesWalker) := do
  let (wallMs, w) ← w.readInt 8 "hlc wall_ms"
  let (counter, w) ← w.readInt 2 "hlc counter"
  let (raw, w) ← w.readField "hlc node_id" 2
  let nodeId ← decodeUtf8 raw
  return (← make wallMs counter nodeId, w)

theorem nodeId_length_lt (t : HLCTimestamp) : (encodeUtf8 t.nodeId).length < 256 ^ 2 :=
  lt_of_le_of_lt t.size (by decide)

theorem toBytes_eq_ok {b : Bytes} : t.toBytes = .ok b ↔ t.Encodable ∧ b = t.encode := by
  simp only [toBytes, bind_eq_ok, intToBytes_eq_ok, pure_eq_ok, Encodable]
  constructor
  · rintro ⟨_, ⟨hw, rfl⟩, _, ⟨hc, rfl⟩, _, ⟨_, rfl⟩, rfl⟩
    exact ⟨⟨hw, hc⟩, rfl⟩
  · rintro ⟨⟨hw, hc⟩, rfl⟩
    exact ⟨_, ⟨hw, rfl⟩, _, ⟨hc, rfl⟩, _, ⟨t.nodeId_length_lt, rfl⟩, rfl⟩

theorem walk_encode (h : t.Encodable) (p : Nat) (rest : Bytes) :
    walk ⟨p, t.encode ++ rest⟩ = .ok (t, ⟨p + t.encode.length, rest⟩) := by
  have hf := readField_append (p + 8 + 2) 2 (encodeUtf8 t.nodeId) rest "hlc node_id"
    t.nodeId_length_lt
  simp only [walk, encode, append_assoc, readInt_append p _ _ h.1,
    readInt_append (p + 8) _ _ h.2, hf, bind, Except.bind, pure, Except.pure,
    decodeUtf8_encodeUtf8, make, dif_pos t.size, length_append, length_toBE]
  congr 3
  omega

end HLCTimestamp

structure Address where
  key : Bytes
  ns : Bytes
  deriving DecidableEq, Repr

namespace Address

variable {a : Address}

def Encodable (a : Address) : Prop := a.ns.length ≤ maxNamespaceLen ∧ a.key.length ≤ maxKeyLen

instance (a : Address) : Decidable a.Encodable := inferInstanceAs (Decidable (_ ∧ _))

def encode (a : Address) : Bytes := toBE 1 a.ns.length ++ (a.ns ++ (toBE 1 a.key.length ++ a.key))

def toBytes (a : Address) : Except PyError Bytes :=
  if a.ns.length > maxNamespaceLen then
    .error (.overflowError s!"Namespace length {a.ns.length} exceeds {maxNamespaceLen} bytes")
  else if a.key.length > maxKeyLen then
    .error (.overflowError s!"Key length {a.key.length} exceeds {maxKeyLen} bytes")
  else do
    let nsLen ← intToBytes a.ns.length 1
    let keyLen ← intToBytes a.key.length 1
    return nsLen ++ (a.ns ++ (keyLen ++ a.key))

def walk (w : BytesWalker) : Except PyError (Address × BytesWalker) := do
  let (ns, w) ← w.readField "namespace" 1
  let (key, w) ← w.readField "key" 1
  return (⟨key, ns⟩, w)

theorem Encodable.ns_lt (h : a.Encodable) : a.ns.length < 256 ^ 1 := lt_of_le_of_lt h.1 (by decide)

theorem Encodable.key_lt (h : a.Encodable) : a.key.length < 256 ^ 1 := lt_of_le_of_lt h.2 (by decide)

theorem toBytes_eq_ok {b : Bytes} : a.toBytes = .ok b ↔ a.Encodable ∧ b = a.encode := by
  simp only [toBytes, refuse_eq_ok, bind_eq_ok, intToBytes_eq_ok, pure_eq_ok, not_lt]
  constructor
  · rintro ⟨hn, hk, _, ⟨_, rfl⟩, _, ⟨_, rfl⟩, rfl⟩
    exact ⟨⟨hn, hk⟩, rfl⟩
  · rintro ⟨h, rfl⟩
    exact ⟨h.1, h.2, _, ⟨h.ns_lt, rfl⟩, _, ⟨h.key_lt, rfl⟩, rfl⟩

theorem walk_encode (h : a.Encodable) (p : Nat) (rest : Bytes) :
    walk ⟨p, a.encode ++ rest⟩ = .ok (a, ⟨p + a.encode.length, rest⟩) := by
  have hk := readField_append (p + 1 + a.ns.length) 1 a.key rest "key" h.key_lt
  simp only [walk, encode, append_assoc, readField_append p 1 a.ns _ "namespace" h.ns_lt, hk,
    bind, Except.bind, pure, Except.pure, length_append, length_toBE]
  congr 3
  omega

end Address

inductive Keyspace where
  | logs
  | tags
  | metadata
  deriving DecidableEq, Repr

def pidSize : Nat := 4

structure PartitionAddress where
  pid : Nat
  address : Address
  deriving DecidableEq, Repr

namespace PartitionAddress

variable {a : PartitionAddress}

def Encodable (a : PartitionAddress) : Prop := a.pid < 256 ^ pidSize ∧ a.address.Encodable

def encode (a : PartitionAddress) : Bytes := toBE pidSize a.pid ++ a.address.encode

def toBytes (a : PartitionAddress) : Except PyError Bytes := do
  let pid ← intToBytes a.pid pidSize
  let address ← a.address.toBytes
  return pid ++ address

def walk (w : BytesWalker) : Except PyError (PartitionAddress × BytesWalker) := do
  let (pid, w) ← w.readInt pidSize "pid"
  let (address, w) ← Address.walk w
  return (⟨pid, address⟩, w)

theorem toBytes_eq_ok {b : Bytes} : a.toBytes = .ok b ↔ a.Encodable ∧ b = a.encode := by
  simp only [toBytes, bind_eq_ok, intToBytes_eq_ok, Address.toBytes_eq_ok, pure_eq_ok]
  constructor
  · rintro ⟨_, ⟨hp, rfl⟩, _, ⟨ha, rfl⟩, rfl⟩
    exact ⟨⟨hp, ha⟩, rfl⟩
  · rintro ⟨⟨hp, ha⟩, rfl⟩
    exact ⟨_, ⟨hp, rfl⟩, _, ⟨ha, rfl⟩, rfl⟩

theorem walk_encode (h : a.Encodable) (p : Nat) (rest : Bytes) :
    walk ⟨p, a.encode ++ rest⟩ = .ok (a, ⟨p + a.encode.length, rest⟩) := by
  simp only [walk, encode, append_assoc, readInt_append p _ _ h.1, Address.walk_encode h.2,
    bind, Except.bind, pure, Except.pure, length_append, length_toBE]
  congr 3
  omega

end PartitionAddress

structure Key where
  pid : Nat
  address : Address
  ts : HLCTimestamp
  deriving DecidableEq, Repr

namespace Key

variable {k : Key} {b : Bytes} {k' : Key}

def partitionAddress (k : Key) : PartitionAddress := ⟨k.pid, k.address⟩

def Encodable (k : Key) : Prop := k.pid < 256 ^ pidSize ∧ k.address.Encodable ∧ k.ts.Encodable

instance (k : Key) : Decidable k.Encodable := inferInstanceAs (Decidable (_ ∧ _))

def encode (ks : Keyspace) (k : Key) : Bytes :=
  match ks with
  | .tags => toBE pidSize k.pid ++ (k.ts.encode ++ k.address.encode)
  | .logs => toBE pidSize k.pid ++ (k.address.encode ++ k.ts.encode)
  | .metadata => k.partitionAddress.encode

def toBytes (ks : Keyspace) (k : Key) : Except PyError Bytes := do
  match ks with
  | .tags =>
    let pid ← intToBytes k.pid pidSize
    let ts ← k.ts.toBytes
    let address ← k.address.toBytes
    return pid ++ (ts ++ address)
  | .logs =>
    let pid ← intToBytes k.pid pidSize
    let address ← k.address.toBytes
    let ts ← k.ts.toBytes
    return pid ++ (address ++ ts)
  | .metadata => k.partitionAddress.toBytes

def walk (ks : Keyspace) (w : BytesWalker) : Except PyError (Key × BytesWalker) := do
  match ks with
  | .tags =>
    let (pid, w) ← w.readInt pidSize "pid"
    let (ts, w) ← HLCTimestamp.walk w
    let (address, w) ← Address.walk w
    return (⟨pid, address, ts⟩, w)
  | _ =>
    let (pid, w) ← w.readInt pidSize "pid"
    let (address, w) ← Address.walk w
    let (ts, w) ← HLCTimestamp.walk w
    return (⟨pid, address, ts⟩, w)

def fromBytes (ks : Keyspace) (b : Bytes) : Except PyError Key := do
  let (key, _) ← walk ks (BytesWalker.start b)
  return key

theorem toBytes_tags_eq_ok : k.toBytes .tags = .ok b ↔ k.Encodable ∧ b = k.encode .tags := by
  simp only [toBytes, bind_eq_ok, intToBytes_eq_ok, HLCTimestamp.toBytes_eq_ok, Address.toBytes_eq_ok, pure_eq_ok]
  constructor
  · rintro ⟨_, ⟨hp, rfl⟩, _, ⟨ht, rfl⟩, _, ⟨ha, rfl⟩, rfl⟩
    exact ⟨⟨hp, ha, ht⟩, rfl⟩
  · rintro ⟨⟨hp, ha, ht⟩, rfl⟩
    exact ⟨_, ⟨hp, rfl⟩, _, ⟨ht, rfl⟩, _, ⟨ha, rfl⟩, rfl⟩

theorem toBytes_logs_eq_ok : k.toBytes .logs = .ok b ↔ k.Encodable ∧ b = k.encode .logs := by
  simp only [toBytes, bind_eq_ok, intToBytes_eq_ok, HLCTimestamp.toBytes_eq_ok, Address.toBytes_eq_ok, pure_eq_ok]
  constructor
  · rintro ⟨_, ⟨hp, rfl⟩, _, ⟨ha, rfl⟩, _, ⟨ht, rfl⟩, rfl⟩
    exact ⟨⟨hp, ha, ht⟩, rfl⟩
  · rintro ⟨⟨hp, ha, ht⟩, rfl⟩
    exact ⟨_, ⟨hp, rfl⟩, _, ⟨ha, rfl⟩, _, ⟨ht, rfl⟩, rfl⟩

theorem walk_tags_encode (h : k.Encodable) (p : Nat) (rest : Bytes) :
    walk .tags ⟨p, k.encode .tags ++ rest⟩ = .ok (k, ⟨p + (k.encode .tags).length, rest⟩) := by
  simp only [walk, encode, append_assoc, readInt_append p _ _ h.1,
    HLCTimestamp.walk_encode h.2.2, Address.walk_encode h.2.1, bind, Except.bind, pure, Except.pure,
    length_append, length_toBE]
  congr 3
  omega

theorem walk_logs_encode (h : k.Encodable) (p : Nat) (rest : Bytes) :
    walk .logs ⟨p, k.encode .logs ++ rest⟩ = .ok (k, ⟨p + (k.encode .logs).length, rest⟩) := by
  simp only [walk, encode, append_assoc, readInt_append p _ _ h.1,
    HLCTimestamp.walk_encode h.2.2, Address.walk_encode h.2.1, bind, Except.bind, pure, Except.pure,
    length_append, length_toBE]
  congr 3
  omega

theorem Encodable.partitionAddress (h : k.Encodable) : k.partitionAddress.Encodable := ⟨h.1, h.2.1⟩

theorem encode_logs_eq (k : Key) : k.encode .logs = k.partitionAddress.encode ++ k.ts.encode := by
  simp [encode, PartitionAddress.encode, partitionAddress]

theorem prefix_logs_iff {a : PartitionAddress} (ha : a.Encodable) (hk : k.Encodable) :
    a.encode <+: k.encode .logs ↔ k.partitionAddress = a := by
  constructor
  · rintro ⟨rest, h⟩
    have hw := PartitionAddress.walk_encode ha 0 rest
    rw [h, encode_logs_eq, PartitionAddress.walk_encode hk.partitionAddress] at hw
    exact congrArg Prod.fst (Except.ok.inj hw)
  · rintro rfl
    rw [encode_logs_eq]
    exact prefix_append _ _

variable (h : k.Encodable)

include h

theorem fromBytes_tags_encode : fromBytes .tags (k.encode .tags) = .ok k := by
  have hw := walk_tags_encode h 0 []
  rw [append_nil] at hw
  simp [fromBytes, BytesWalker.start, hw, bind, Except.bind, pure, Except.pure]

theorem fromBytes_logs_encode : fromBytes .logs (k.encode .logs) = .ok k := by
  have hw := walk_logs_encode h 0 []
  rw [append_nil] at hw
  simp [fromBytes, BytesWalker.start, hw, bind, Except.bind, pure, Except.pure]

theorem encode_tags_inj (h' : k'.Encodable) (he : k.encode .tags = k'.encode .tags) : k = k' := by
  have hk := fromBytes_tags_encode h
  rw [he, fromBytes_tags_encode h'] at hk
  exact (Except.ok.inj hk).symm

theorem encode_logs_inj (h' : k'.Encodable) (he : k.encode .logs = k'.encode .logs) : k = k' := by
  have hk := fromBytes_logs_encode h
  rw [he, fromBytes_logs_encode h'] at hk
  exact (Except.ok.inj hk).symm

end Key

end Tourillon
