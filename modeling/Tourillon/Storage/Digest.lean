import Tourillon.Schema.Record
import Mathlib.Algebra.BigOperators.Group.List.Basic

namespace Tourillon

open Endian Exceptional List

variable {key : Key} {pid : Nat} {b : Bytes} {bucket pid' : Nat}

class Blake2b where
  digest16 : Bytes → BitVec 128
  digest8 : Bytes → BitVec 64
  digest1 : Bytes → BitVec 8

def digestBytes : Nat := 16

def countBytes : Nat := 8

def bucketBytes : Nat := 8

def bucketShift : Nat := 22

def rootPrefix : Bytes := [MetaKind.digest.value, 0]

def bucketPrefix : Bytes := [MetaKind.digest.value, 1]

@[ext] structure DigestCell where
  count : Int := 0
  digest : BitVec 128 := 0
  deriving DecidableEq, Repr

namespace DigestCell

variable (a b : DigestCell) {c : DigestCell}

instance : Zero DigestCell := ⟨{}⟩

instance : Add DigestCell := ⟨fun a b => ⟨a.count + b.count, a.digest ^^^ b.digest⟩⟩

instance : Sub DigestCell := ⟨fun a b => ⟨a.count - b.count, a.digest ^^^ b.digest⟩⟩

instance : Neg DigestCell := ⟨fun a => ⟨-a.count, a.digest⟩⟩

@[simp] theorem count_zero : (0 : DigestCell).count = 0 := rfl

@[simp] theorem digest_zero : (0 : DigestCell).digest = 0 := rfl

@[simp] theorem count_add : (a + b).count = a.count + b.count := rfl

@[simp] theorem digest_add : (a + b).digest = a.digest ^^^ b.digest := rfl

@[simp] theorem count_sub : (a - b).count = a.count - b.count := rfl

@[simp] theorem digest_sub : (a - b).digest = a.digest ^^^ b.digest := rfl

@[simp] theorem count_neg (a : DigestCell) : (-a).count = -a.count := rfl

@[simp] theorem digest_neg (a : DigestCell) : (-a).digest = a.digest := rfl

instance : AddCommGroup DigestCell where
  add_assoc a b c := DigestCell.ext (by simp [add_assoc]) (by simp [BitVec.xor_assoc])
  zero_add a := DigestCell.ext (by simp) (by simp)
  add_zero a := DigestCell.ext (by simp) (by simp)
  add_comm a b := DigestCell.ext (by simp [add_comm]) (by simp [BitVec.xor_comm])
  neg_add_cancel a := DigestCell.ext (by simp) (by simp)
  sub_eq_add_neg a b := DigestCell.ext (by simp [sub_eq_add_neg]) (by simp)
  nsmul := nsmulRec
  zsmul := zsmulRec

def isEmpty (c : DigestCell) : Bool := c.count = 0 && c.digest = 0

theorem isEmpty_iff : c.isEmpty = true ↔ c = 0 := by simp [isEmpty, DigestCell.ext_iff]

def ofBytes [Blake2b] (key : Bytes) : DigestCell := ⟨1, Blake2b.digest16 key⟩

def of [Blake2b] (key : Key) : DigestCell := ofBytes (key.encode .tags)

def encode (c : DigestCell) : Bytes := toBE countBytes c.count.toNat ++ toBE digestBytes c.digest.toNat

def toBytes (c : DigestCell) : Except PyError Bytes :=
  if c.count < 0 then .error (.overflowError "can't convert negative int to unsigned")
  else do
    let count ← intToBytes c.count.toNat countBytes
    let digest ← intToBytes c.digest.toNat digestBytes
    return count ++ digest

def fromBytes (b : Bytes) : Except PyError DigestCell :=
  if b.length ≠ countBytes + digestBytes then
    .error (.valueError s!"digest cell must be 24 bytes, got {b.length}")
  else .ok ⟨ofBE (b.take countBytes), BitVec.ofNat 128 (ofBE (b.drop countBytes))⟩

def Encodable (c : DigestCell) : Prop := 0 ≤ c.count ∧ c.count.toNat < 256 ^ countBytes

theorem digest_lt (c : DigestCell) : c.digest.toNat < 256 ^ digestBytes :=
  lt_of_lt_of_eq c.digest.isLt (by decide)

theorem toBytes_eq_ok {b : Bytes} : c.toBytes = .ok b ↔ c.Encodable ∧ b = c.encode := by
  simp only [toBytes, refuse_eq_ok, bind_eq_ok, intToBytes_eq_ok, pure_eq_ok, not_lt]
  constructor
  · rintro ⟨hn, _, ⟨hc, rfl⟩, _, ⟨_, rfl⟩, rfl⟩
    exact ⟨⟨hn, hc⟩, rfl⟩
  · rintro ⟨⟨hn, hc⟩, rfl⟩
    exact ⟨hn, _, ⟨hc, rfl⟩, _, ⟨c.digest_lt, rfl⟩, rfl⟩

theorem fromBytes_encode (h : c.Encodable) : fromBytes c.encode = .ok c := by
  have hl : c.encode.length = countBytes + digestBytes := by simp [encode]
  have hcount : c.encode.take countBytes = toBE countBytes c.count.toNat := by simp [encode]
  have hdigest : c.encode.drop countBytes = toBE digestBytes c.digest.toNat := by simp [encode]
  simp only [fromBytes, hl, ne_eq, not_true_eq_false, if_false, hcount, hdigest, ofBE_toBE h.2,
    ofBE_toBE c.digest_lt]
  congr 1
  refine DigestCell.ext ?_ ?_
  · exact Int.toNat_of_nonneg h.1
  · simp

theorem count_sum_ofBytes [Blake2b] (ks : List Bytes) : ((ks.map ofBytes).sum).count = ks.length := by
  induction ks with
  | nil => rfl
  | cons k ks ih =>
    simp only [map_cons, sum_cons, count_add, ih, length_cons, ofBytes]
    push_cast
    omega

theorem sum_ofBytes_eq_zero [Blake2b] {ks : List Bytes} : (ks.map ofBytes).sum = 0 ↔ ks = [] := by
  constructor
  · intro h
    have hc := count_sum_ofBytes ks
    rw [h, count_zero] at hc
    exact eq_nil_of_length_eq_zero (by omega)
  · rintro rfl
    rfl

end DigestCell

def rootRef (pid : Nat) : Bytes := rootPrefix ++ toBE pidSize pid

def bucketRef (pid bucket : Nat) : Bytes := bucketPrefix ++ (toBE pidSize pid ++ toBE bucketBytes bucket)

def rootKey (pid : Nat) : Except PyError Bytes := do
  let pid ← intToBytes pid pidSize
  return rootPrefix ++ pid

def bucketKey (pid bucket : Nat) : Except PyError Bytes := do
  let pid ← intToBytes pid pidSize
  let bucket ← intToBytes bucket bucketBytes
  return bucketPrefix ++ (pid ++ bucket)

def bucketOf (wallMs : Nat) : Nat := wallMs >>> bucketShift

def cellKeys (key : Key) : Except PyError (Bytes × Bytes) := do
  let root ← rootKey key.pid
  let bucket ← bucketKey key.pid (bucketOf key.ts.wallMs)
  return (root, bucket)

def cellRefs (key : Key) : List Bytes := [rootRef key.pid, bucketRef key.pid (bucketOf key.ts.wallMs)]

theorem rootKey_eq_ok : rootKey pid = .ok b ↔ pid < 256 ^ pidSize ∧ b = rootRef pid := by
  simp only [rootKey, bind_eq_ok, intToBytes_eq_ok, pure_eq_ok]
  constructor
  · rintro ⟨_, ⟨hp, rfl⟩, rfl⟩
    exact ⟨hp, rfl⟩
  · rintro ⟨hp, rfl⟩
    exact ⟨_, ⟨hp, rfl⟩, rfl⟩

theorem bucketKey_eq_ok : bucketKey pid bucket = .ok b ↔
      (pid < 256 ^ pidSize ∧ bucket < 256 ^ bucketBytes) ∧ b = bucketRef pid bucket := by
  simp only [bucketKey, bind_eq_ok, intToBytes_eq_ok, pure_eq_ok]
  constructor
  · rintro ⟨_, ⟨hp, rfl⟩, _, ⟨hb, rfl⟩, rfl⟩
    exact ⟨⟨hp, hb⟩, rfl⟩
  · rintro ⟨⟨hp, hb⟩, rfl⟩
    exact ⟨_, ⟨hp, rfl⟩, _, ⟨hb, rfl⟩, rfl⟩

theorem bucketOf_le (wallMs : Nat) : bucketOf wallMs ≤ wallMs := Nat.shiftRight_le ..

theorem bucketOf_eq (wallMs : Nat) : bucketOf wallMs = wallMs / 2 ^ bucketShift :=
  Nat.shiftRight_eq_div_pow ..

theorem bucketOf_lt (h : key.Encodable) : bucketOf key.ts.wallMs < 256 ^ bucketBytes :=
  lt_of_le_of_lt (bucketOf_le _) h.2.2.1

theorem cellKeys_ok (h : key.Encodable) :
    cellKeys key = .ok (rootRef key.pid, bucketRef key.pid (bucketOf key.ts.wallMs)) := by
  simp only [cellKeys, bind_eq_ok, pure_eq_ok, rootKey_eq_ok, bucketKey_eq_ok]
  exact ⟨_, ⟨h.1, rfl⟩, _, ⟨⟨h.1, bucketOf_lt h⟩, rfl⟩, rfl⟩

theorem rootRef_ne_bucketRef (pid pid' bucket : Nat) : rootRef pid ≠ bucketRef pid' bucket := by
  simp [rootRef, bucketRef, rootPrefix, bucketPrefix]

theorem rootRef_inj (h : pid < 256 ^ pidSize) (h' : pid' < 256 ^ pidSize) :
    rootRef pid = rootRef pid' ↔ pid = pid' := by
  constructor
  · intro he
    exact toBE_inj h h' (append_cancel_left he)
  · rintro rfl
    rfl

theorem bucketRef_inj {b b' : Nat} (h : pid < 256 ^ pidSize) (h' : pid' < 256 ^ pidSize)
    (hb : b < 256 ^ bucketBytes) (hb' : b' < 256 ^ bucketBytes) :
    bucketRef pid b = bucketRef pid' b' ↔ pid = pid' ∧ b = b' := by
  constructor
  · intro he
    obtain ⟨hp, hbb⟩ := append_inj (append_cancel_left he) (by simp)
    exact ⟨toBE_inj h h' hp, toBE_inj hb hb' hbb⟩
  · rintro ⟨rfl, rfl⟩
    rfl

theorem mem_cellRefs_root (hk : key.Encodable) (hp : pid < 256 ^ pidSize) :
    rootRef pid ∈ cellRefs key ↔ key.pid = pid := by
  simp only [cellRefs, mem_cons, rootRef_inj hp hk.1, rootRef_ne_bucketRef, not_mem_nil, or_false]
  exact eq_comm

theorem mem_cellRefs_bucket (hk : key.Encodable) (hp : pid < 256 ^ pidSize) (hb : bucket < 256 ^ bucketBytes) :
    bucketRef pid bucket ∈ cellRefs key ↔ key.pid = pid ∧ bucketOf key.ts.wallMs = bucket := by
  simp only [cellRefs, mem_cons, bucketRef_inj hp hk.1 hb (bucketOf_lt hk),
    (rootRef_ne_bucketRef _ _ _).symm, not_mem_nil, or_false, false_or]
  exact and_congr eq_comm eq_comm

namespace Sample

scoped instance blake : Blake2b := ⟨fun _ => 0, fun _ => 0, fun _ => 0⟩

end Sample

end Tourillon
