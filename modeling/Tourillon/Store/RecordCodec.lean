import Tourillon.Store.Wire

namespace Tourillon

open Endian Exceptional BytesWalker Record

def Value.walk (w : BytesWalker) : Except PyError (Value × BytesWalker) := do
  let (quorumWrite, w) ← w.readInt 1 "quorum_write"
  let (data, w) := w.readRemaining
  return (← Value.make data quorumWrite, w)

def Record.fromBytes (ks : Keyspace) (b : Bytes) : Except PyError Record := do
  let (key, w) ← Key.walk ks (BytesWalker.start b)
  let (value, w) ← Value.walk w
  let tag ← Tag.fromBytes w.readRemaining.1
  return ⟨⟨key, tag⟩, value⟩

theorem Value.walk_exhausts {w w' : BytesWalker} {v : Value} (h : Value.walk w = .ok (v, w')) : w'.rest = [] := by
  simp only [Value.walk, bind_eq_ok, pure_eq_ok, Prod.exists, Prod.mk.injEq] at h
  obtain ⟨_, _, _, _, _, _, rfl⟩ := h
  rfl

theorem Record.fromBytes_refuses (ks : Keyspace) (b : Bytes) (r : Record) : fromBytes ks b ≠ .ok r := by
  intro h
  simp only [fromBytes, bind_eq_ok, Prod.exists] at h
  obtain ⟨_, _, _, _, w, hvalue, tag, htag, _⟩ := h
  rw [readRemaining, Value.walk_exhausts hvalue] at htag
  cases htag

theorem decodeRecord_readable {parts : List Bytes} {r : Record} (h : decodeRecord parts = .ok r) :
    r.tag.Readable := by
  unfold decodeRecord at h
  split at h
  · simp only [bind_eq_ok, pure_eq_ok] at h
    obtain ⟨key, _, tag, htag, value, _, rfl⟩ := h
    exact Tag.readable_of_fromBytes htag
  · cases h

theorem record_codecs (r : Record) :
    (∀ parts, encodeRecord r = .ok parts → (decodeRecord parts = .ok r ↔ r.tag.Readable)) ∧
    ∀ ks b, r.toBytes ks = .ok b → ∃ e, fromBytes ks b = .error e := by
  refine ⟨?_, ?_⟩
  · intro parts hparts
    exact ⟨decodeRecord_readable, fun h => decodeRecord_encodeRecord h hparts⟩
  · intro ks b _
    cases hdecoded : fromBytes ks b with
    | ok r' => exact absurd hdecoded (fromBytes_refuses ks b r')
    | error e => exact ⟨e, rfl⟩

namespace Sample

def plainRecord : Record := ⟨⟨⟨0, ⟨[1], [2]⟩, ⟨9, 0, "a", size_a⟩⟩, ⟨.live, {}⟩⟩, ⟨[3], 2, size_three⟩⟩

def barePayload : Record := { plainRecord with tag := ⟨.live, ⟨none, [0]⟩⟩ }

theorem record_codecs_lose_records : (∃ b, plainRecord.toBytes .logs = .ok b ∧
      fromBytes .logs b = .error (.valueError "Input bytes too short to contain Tag")) ∧
    ∃ parts, encodeRecord barePayload = .ok parts ∧
      decodeRecord parts = .ok { barePayload with tag := ⟨.live, ⟨some .live, []⟩⟩ } ∧
      barePayload.tag ≠ ⟨.live, ⟨some .live, []⟩⟩ := by
  refine ⟨⟨plainRecord.key.encode .logs ++ (plainRecord.value.encode ++ plainRecord.tag.toBytes), ?_⟩,
    ⟨[barePayload.key.encode .tags, barePayload.tag.toBytes, barePayload.value.encode], ?_⟩⟩
  · decide +kernel
  · decide +kernel

end Sample

end Tourillon
