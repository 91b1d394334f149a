import Tourillon.Schema.Key

namespace Tourillon

open Endian Exceptional

variable {w w' : BytesWalker}

theorem encodeUtf8_of_decodeUtf8 {b : Bytes} {s : String} (h : decodeUtf8 b = .ok s) : encodeUtf8 s = b := by
  unfold decodeUtf8 at h
  split at h
  · rename_i found hfound
    cases h
    unfold String.fromUTF8? at hfound
    split at hfound
    · cases hfound
      rfl
    · cases hfound
  · cases h

namespace BytesWalker

variable {w w' : BytesWalker} {label : String}

theorem read_ok {n : Nat} {b : Bytes} (h : w.read n label = .ok (b, w')) :
    w.rest = b ++ w'.rest ∧ b.length = n := by
  unfold read at h
  split at h
  · cases h
  · rename_i hlen
    cases h
    refine ⟨(List.take_append_drop n w.rest).symm, ?_⟩
    rw [List.length_take]
    omega

theorem readInt_ok {n : Nat} {v : Nat} (h : w.readInt n label = .ok (v, w')) :
    w.rest = toBE n v ++ w'.rest ∧ v < 256 ^ n := by
  simp only [readInt, bind_eq_ok, pure_eq_ok, Prod.exists, Prod.mk.injEq] at h
  obtain ⟨chunk, _, hread, rfl, rfl⟩ := h
  obtain ⟨hrest, hlen⟩ := read_ok hread
  have hback := toBE_ofBE chunk
  have hlt := ofBE_lt chunk
  rw [hlen] at hback hlt
  rw [hback]
  exact ⟨hrest, hlt⟩

theorem readField_ok {size : Nat} {b : Bytes} (h : w.readField label size = .ok (b, w')) :
    w.rest = toBE size b.length ++ (b ++ w'.rest) ∧ b.length < 256 ^ size := by
  simp only [readField, bind_eq_ok, Prod.exists] at h
  obtain ⟨length, w₁, hlength, hread⟩ := h
  obtain ⟨hrest, hlt⟩ := readInt_ok hlength
  obtain ⟨hrest₁, rfl⟩ := read_ok hread
  rw [hrest, hrest₁]
  exact ⟨rfl, hlt⟩

end BytesWalker

open BytesWalker

theorem HLCTimestamp.walk_ok {t : HLCTimestamp} (h : HLCTimestamp.walk w = .ok (t, w')) :
    w.rest = t.encode ++ w'.rest ∧ t.Encodable := by
  simp only [walk, bind_eq_ok, pure_eq_ok, Prod.exists, Prod.mk.injEq] at h
  obtain ⟨wallMs, w₁, hwall, counter, w₂, hcounter, raw, w₃, hraw, nodeId, hnode, made, hmade, rfl, rfl⟩ := h
  unfold make at hmade
  split at hmade
  · cases hmade
    obtain ⟨hrest, hwallLt⟩ := readInt_ok hwall
    obtain ⟨hrest₁, hcounterLt⟩ := readInt_ok hcounter
    obtain ⟨hrest₂, _⟩ := readField_ok hraw
    refine ⟨?_, hwallLt, hcounterLt⟩
    rw [hrest, hrest₁, hrest₂, ← encodeUtf8_of_decodeUtf8 hnode]
    simp [encode]
  · cases hmade

theorem Address.walk_ok {a : Address} (h : Address.walk w = .ok (a, w')) : w.rest = a.encode ++ w'.rest := by
  simp only [walk, bind_eq_ok, pure_eq_ok, Prod.exists, Prod.mk.injEq] at h
  obtain ⟨ns, w₁, hns, key, w₂, hkey, rfl, rfl⟩ := h
  rw [(readField_ok hns).1, (readField_ok hkey).1]
  simp [encode]

theorem Key.walk_logs_ok {k : Key} (h : Key.walk .logs w = .ok (k, w')) :
    w.rest = k.encode .logs ++ w'.rest ∧ (k.address.Encodable → k.Encodable) := by
  simp only [walk, bind_eq_ok, pure_eq_ok, Prod.exists, Prod.mk.injEq] at h
  obtain ⟨pid, w₁, hpid, address, w₂, haddress, ts, w₃, hts, rfl, rfl⟩ := h
  obtain ⟨hrest, hlt⟩ := readInt_ok hpid
  obtain ⟨hrest₂, htsEnc⟩ := HLCTimestamp.walk_ok hts
  refine ⟨?_, fun haddr => ⟨hlt, haddr, htsEnc⟩⟩
  rw [hrest, Address.walk_ok haddress, hrest₂]
  simp [encode]

end Tourillon
