import Tourillon.Library.Endian
import Mathlib.Data.String.Basic

namespace Utf8

open Endian List

variable {α β : Type} {f : α → List β} {l l' : List α} {a b : Nat} {c : Char}

def Diverges {α : Type} [LT α] : List α → List α → Prop
  | a :: as, b :: bs => a < b ∨ a = b ∧ Diverges as bs
  | _, _ => False

theorem Diverges.append_lt [LT α] {as bs : List α} (h : Diverges as bs) (xs ys : List α) : as ++ xs < bs ++ ys := by
  induction as generalizing bs with
  | nil => cases h
  | cons a as ih =>
    cases bs with
    | nil => cases h
    | cons b bs =>
      rw [cons_append, cons_append, cons_lt_cons_iff]
      rcases h with hlt | ⟨heq, hrest⟩
      · exact .inl hlt
      · exact .inr ⟨heq, ih hrest⟩

theorem flatMap_lt_of_lt [LinearOrder α] [LinearOrder β] (hf : ∀ a b, a < b → Diverges (f a) (f b))
    (hne : ∀ a, f a ≠ []) (h : l < l') : l.flatMap f < l'.flatMap f := by
  induction l generalizing l' with
  | nil =>
    cases l' with
    | nil => cases h
    | cons b l' =>
      rw [flatMap_cons]
      cases hb : f b with
      | nil => exact absurd hb (hne b)
      | cons c rest => exact nil_lt_cons c _
  | cons a l ih =>
    cases l' with
    | nil => cases h
    | cons b l' =>
      rw [flatMap_cons, flatMap_cons]
      rcases cons_lt_cons_iff.mp h with hlt | ⟨rfl, hrest⟩
      · exact (hf a b hlt).append_lt _ _
      · exact (append_lt_append_iff rfl).mpr (.inr ⟨rfl, ih hrest⟩)

theorem flatMap_lt_iff [LinearOrder α] [LinearOrder β] (hf : ∀ a b, a < b → Diverges (f a) (f b))
    (hne : ∀ a, f a ≠ []) : l.flatMap f < l'.flatMap f ↔ l < l' := by
  constructor
  · intro h
    rcases lt_trichotomy l l' with hlt | rfl | hgt
    · exact hlt
    · exact absurd h (lt_irrefl _)
    · exact absurd h (flatMap_lt_of_lt hf hne hgt).not_gt
  · exact flatMap_lt_of_lt hf hne

theorem div_lt_or_mod_lt (n : Nat) (h : a < b) : a / n < b / n ∨ a / n = b / n ∧ a % n < b % n := by
  rcases (Nat.div_le_div_right (c := n) h.le).lt_or_eq with hlt | heq
  · exact .inl hlt
  · have ha := Nat.div_add_mod a n
    have hb := Nat.div_add_mod b n
    rw [heq] at ha
    exact .inr ⟨heq, by omega⟩

theorem toNat_continuation (n : Nat) : (UInt8.ofNat (n % 64 + 128)).toNat = n % 64 + 128 := by
  rw [UInt8.toNat_ofNat']
  omega

theorem toNat_lead {n m base : Nat} (h : m + base ≤ 256) (hm : 0 < m) :
    (UInt8.ofNat (n % m + base)).toNat = n % m + base := by
  rw [UInt8.toNat_ofNat']
  have hlt := Nat.mod_lt n hm
  omega

theorem digits_lt (h : a < b) : a / 262144 < b / 262144 ∨ a / 262144 = b / 262144 ∧
      (a / 4096 % 64 < b / 4096 % 64 ∨ a / 4096 % 64 = b / 4096 % 64 ∧
        (a / 64 % 64 < b / 64 % 64 ∨ a / 64 % 64 = b / 64 % 64 ∧ a % 64 < b % 64)) := by
  have hhigh (n : Nat) : n % 262144 / 4096 = n / 4096 % 64 := by omega
  have hlow (n : Nat) : n % 262144 % 4096 / 64 = n / 64 % 64 := by omega
  have hlast (n : Nat) : n % 262144 % 4096 % 64 = n % 64 := by omega
  refine (div_lt_or_mod_lt 262144 h).imp_right (And.imp_right fun h₁ => ?_)
  have h₂ := div_lt_or_mod_lt 4096 h₁
  rw [hhigh, hhigh] at h₂
  refine h₂.imp_right (And.imp_right fun h₃ => ?_)
  have h₄ := div_lt_or_mod_lt 64 h₃
  rwa [hlow, hlow, hlast, hlast] at h₄

theorem encodeChar_diverges {d : Char} (h : c < d) :
    Diverges (String.utf8EncodeChar c) (String.utf8EncodeChar d) := by
  have hlt : c.val.toNat < d.val.toNat := h
  have hmax : d.val.toNat < 0x110000 := by
    rcases d.valid with hv | hv
    · exact hv.trans (by decide)
    · exact hv.2
  simp only [String.utf8EncodeChar]
  have hdigits := digits_lt hlt
  have hc : c.val.toNat / 262144 % 8 = c.val.toNat / 262144 := by omega
  have hd : d.val.toNat / 262144 % 8 = d.val.toNat / 262144 := by omega
  split_ifs <;>
    simp only [Diverges, UInt8.lt_iff_toNat_lt, ← UInt8.toNat_inj, toNat_continuation,
      toNat_lead (by decide : 32 + 192 ≤ 256) (by decide),
      toNat_lead (by decide : 16 + 224 ≤ 256) (by decide),
      toNat_lead (by decide : 8 + 240 ≤ 256) (by decide), UInt8.toNat_ofNat']
  all_goals first
    | simpa only [Nat.add_lt_add_iff_right, Nat.add_right_cancel_iff, and_false, or_false, hc, hd]
        using hdigits
    | omega

theorem encodeChar_ne_nil (c : Char) : String.utf8EncodeChar c ≠ [] := by
  simp only [String.utf8EncodeChar]
  split_ifs <;> simp

theorem bytes_eq (s : String) : s.toByteArray.data.toList = s.toList.flatMap String.utf8EncodeChar := by
  have hs : s.toByteArray = s.toList.utf8Encode := by rw [← String.toByteArray_ofList, String.ofList_toList]
  rw [hs, utf8Encode, data_toByteArray]

theorem zero_notMem_encodeChar (h : c.val.toNat ≠ 0) : (0 : UInt8) ∉ String.utf8EncodeChar c := by
  simp only [String.utf8EncodeChar]
  split_ifs <;>
    simp only [mem_cons, not_mem_nil, or_false, ← UInt8.toNat_inj, toNat_continuation,
      toNat_lead (by decide : 32 + 192 ≤ 256) (by decide),
      toNat_lead (by decide : 16 + 224 ≤ 256) (by decide),
      toNat_lead (by decide : 8 + 240 ≤ 256) (by decide), UInt8.toNat_ofNat', UInt8.toNat_ofNat] <;>
    omega

theorem zero_notMem_bytes {s : String} (h : ∀ c ∈ s.toList, c.val.toNat ≠ 0) :
    (0 : UInt8) ∉ s.toByteArray.data.toList := by
  rw [bytes_eq, mem_flatMap]
  rintro ⟨c, hc, hzero⟩
  exact zero_notMem_encodeChar (h c hc) hzero

theorem bytes_lt_iff (s t : String) : s.toByteArray.data.toList < t.toByteArray.data.toList ↔ s < t := by
  rw [bytes_eq, bytes_eq, String.lt_iff_toList_lt]
  exact flatMap_lt_iff (fun _ _ => encodeChar_diverges) encodeChar_ne_nil

end Utf8
