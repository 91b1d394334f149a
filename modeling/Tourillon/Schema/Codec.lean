import Tourillon.Library.Endian

namespace Tourillon

open Endian

inductive PyError where
  | overflowError (message : String)
  | valueError (message : String)
  | runtimeError (message : String)
  | keyError (key : Bytes)
  | indexError
  | cancelledError
  deriving DecidableEq, Repr

def intToBytes (n width : Nat) : Except PyError Bytes :=
  if n < 256 ^ width then .ok (toBE width n) else .error (.overflowError "int too big to convert")

theorem intToBytes_eq_ok {n width : Nat} {b : Bytes} :
    intToBytes n width = .ok b ↔ n < 256 ^ width ∧ b = toBE width n := by
  unfold intToBytes
  split
  · rename_i h
    simp [h, eq_comm]
  · rename_i h
    simp [h]

def encodeUtf8 (s : String) : Bytes := s.toByteArray.data.toList

def decodeUtf8 (b : Bytes) : Except PyError String :=
  match String.fromUTF8? ⟨b.toArray⟩ with
  | some s => .ok s
  | none => .error (.valueError "invalid utf-8")

theorem decodeUtf8_encodeUtf8 (s : String) : decodeUtf8 (encodeUtf8 s) = .ok s := by
  have h : String.fromUTF8? ⟨(encodeUtf8 s).toArray⟩ = some s := by
    unfold String.fromUTF8?
    rw [dif_pos (show ByteArray.IsValidUTF8 ⟨(encodeUtf8 s).toArray⟩ from s.isValidUTF8)]
    rfl
  simp [decodeUtf8, h]

theorem encodeUtf8_inj {s t : String} (h : encodeUtf8 s = encodeUtf8 t) : s = t := by
  have hs := decodeUtf8_encodeUtf8 s
  rw [h, decodeUtf8_encodeUtf8 t] at hs
  exact (Except.ok.inj hs).symm

def maxNodeIdLenBytes : Nat := 63

def maxNamespaceLen : Nat := 63

def maxKeyLen : Nat := 128

structure BytesWalker where
  pos : Nat
  rest : Bytes
  deriving DecidableEq, Repr

namespace BytesWalker

def start (data : Bytes) : BytesWalker := ⟨0, data⟩

def read (n : Nat) (label : String) (w : BytesWalker) : Except PyError (Bytes × BytesWalker) :=
  if w.rest.length < n then
    .error (.valueError s!"Buffer too short for {label}: need {w.pos + n} bytes, got {w.pos + w.rest.length}")
  else .ok (w.rest.take n, ⟨w.pos + n, w.rest.drop n⟩)

def readInt (n : Nat) (label : String) (w : BytesWalker) : Except PyError (Nat × BytesWalker) := do
  let (chunk, w) ← w.read n label
  return (ofBE chunk, w)

def readField (label : String) (lenSize : Nat) (w : BytesWalker) : Except PyError (Bytes × BytesWalker) := do
  let (length, w) ← w.readInt lenSize s!"{label} length prefix"
  w.read length label

def readRemaining (w : BytesWalker) : Bytes × BytesWalker := (w.rest, ⟨w.pos + w.rest.length, []⟩)

theorem read_append (p : Nat) (b rest : Bytes) (label : String) :
    read b.length label ⟨p, b ++ rest⟩ = .ok (b, ⟨p + b.length, rest⟩) := by
  simp [read]

theorem readInt_append {n width : Nat} (p : Nat) (rest : Bytes) (label : String) (h : n < 256 ^ width) :
    readInt width label ⟨p, toBE width n ++ rest⟩ = .ok (n, ⟨p + width, rest⟩) := by
  have hr := read_append p (toBE width n) rest label
  rw [length_toBE] at hr
  simp [readInt, hr, ofBE_toBE h, Bind.bind, Except.bind, pure, Except.pure]

theorem readField_append (p width : Nat) (b rest : Bytes) (label : String) (h : b.length < 256 ^ width) :
    readField label width ⟨p, toBE width b.length ++ (b ++ rest)⟩ =
      .ok (b, ⟨p + width + b.length, rest⟩) := by
  simp [readField, readInt_append p _ _ h, read_append, Bind.bind, Except.bind]

end BytesWalker

end Tourillon
