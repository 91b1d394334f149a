import Mathlib.Data.List.Lex
import Mathlib.Tactic.Ring
import Mathlib.Tactic.Linarith

instance byteOrder : LinearOrder UInt8 where
  le_refl := UInt8.le_refl
  le_trans := fun _ _ _ => UInt8.le_trans
  le_antisymm := fun _ _ => UInt8.le_antisymm
  le_total := UInt8.le_total
  lt_iff_le_not_ge := fun a b => by
    rw [UInt8.not_le]
    exact ⟨fun h => ⟨UInt8.le_of_lt h, h⟩, fun h => h.2⟩
  toDecidableLE := inferInstance
  toDecidableLT := inferInstance
  toDecidableEq := inferInstance

instance lawfulBytes : LawfulBEq (List UInt8) := List.instLawfulBEq

namespace Endian

open List

variable {w n m : Nat}

abbrev Bytes := List UInt8

def toBE : Nat → Nat → Bytes
  | 0, _ => []
  | w + 1, n => UInt8.ofNat (n / 256 ^ w) :: toBE w (n % 256 ^ w)

def ofBE : Bytes → Nat
  | [] => 0
  | b :: bs => b.toNat * 256 ^ bs.length + ofBE bs

@[simp] theorem length_toBE (w n : Nat) : (toBE w n).length = w := by
  induction w generalizing n with
  | zero => rfl
  | succ w ih => simp [toBE, ih]

theorem ofBE_lt (bs : Bytes) : ofBE bs < 256 ^ bs.length := by
  induction bs with
  | nil => simp [ofBE]
  | cons b bs ih =>
    have hb : b.toNat < 256 := b.toNat_lt
    have hm : (b.toNat + 1) * 256 ^ bs.length ≤ 256 * 256 ^ bs.length := Nat.mul_le_mul_right _ hb
    simp only [ofBE, length_cons, Nat.pow_succ]
    linarith

theorem toNat_leading (h : n < 256 ^ (w + 1)) : (UInt8.ofNat (n / 256 ^ w)).toNat = n / 256 ^ w := by
  have hlt : n / 256 ^ w < 256 := by
    apply Nat.div_lt_of_lt_mul
    rwa [Nat.pow_succ] at h
  simpa using Nat.mod_eq_of_lt hlt

theorem ofBE_toBE (h : n < 256 ^ w) : ofBE (toBE w n) = n := by
  induction w generalizing n with
  | zero => simp [toBE, ofBE]; omega
  | succ w ih =>
    have hr : n % 256 ^ w < 256 ^ w := Nat.mod_lt _ (by positivity)
    simp only [toBE, ofBE, length_toBE, toNat_leading h, ih hr]
    rw [Nat.mul_comm]
    exact Nat.div_add_mod n (256 ^ w)

theorem toBE_succ_of_lt (h : n < 256 ^ w) : toBE (w + 1) n = 0 :: toBE w n := by
  rw [toBE, Nat.div_eq_of_lt h, Nat.mod_eq_of_lt h]
  rfl

theorem toBE_ofBE (bs : Bytes) : toBE bs.length (ofBE bs) = bs := by
  induction bs with
  | nil => rfl
  | cons b bs ih =>
    have hlt := ofBE_lt bs
    have hpos : 0 < 256 ^ bs.length := by positivity
    have hd : (b.toNat * 256 ^ bs.length + ofBE bs) / 256 ^ bs.length = b.toNat := by
      rw [Nat.mul_comm, Nat.mul_add_div hpos, Nat.div_eq_of_lt hlt, Nat.add_zero]
    have hm : (b.toNat * 256 ^ bs.length + ofBE bs) % 256 ^ bs.length = ofBE bs := by
      rw [Nat.mul_comm, Nat.mul_add_mod, Nat.mod_eq_of_lt hlt]
    simp only [ofBE, length_cons, toBE, hd, hm, ih]
    simp

theorem toBE_inj (hn : n < 256 ^ w) (hm : m < 256 ^ w) (h : toBE w n = toBE w m) : n = m := by
  rw [← ofBE_toBE hn, ← ofBE_toBE hm, h]

theorem append_lt_append_iff {α : Type} [LinearOrder α] {xs ys as bs : List α} (h : xs.length = ys.length) :
    xs ++ as < ys ++ bs ↔ xs < ys ∨ xs = ys ∧ as < bs := by
  induction xs generalizing ys with
  | nil =>
    cases ys with
    | nil => simp
    | cons y ys => simp at h
  | cons x xs ih =>
    cases ys with
    | nil => simp at h
    | cons y ys =>
      have hl : xs.length = ys.length := by simpa using h
      simp only [cons_append, cons_lt_cons_iff, ih hl, cons.injEq]
      tauto

theorem toBE_lt_iff (hn : n < 256 ^ w) (hm : m < 256 ^ w) : toBE w n < toBE w m ↔ n < m := by
  induction w generalizing n m with
  | zero => simp [toBE]; omega
  | succ w ih =>
    have hpos : 0 < 256 ^ w := by positivity
    have hrn : n % 256 ^ w < 256 ^ w := Nat.mod_lt _ hpos
    have hrm : m % 256 ^ w < 256 ^ w := Nat.mod_lt _ hpos
    have hdn := Nat.div_add_mod n (256 ^ w)
    have hdm := Nat.div_add_mod m (256 ^ w)
    simp only [toBE, cons_lt_cons_iff, ih hrn hrm, UInt8.lt_iff_toNat_lt,
      ← UInt8.toNat_inj, toNat_leading hn, toNat_leading hm]
    constructor
    · rintro (h | ⟨h, hr⟩)
      · by_contra hle
        exact absurd (Nat.div_le_div_right (c := 256 ^ w) (Nat.le_of_not_lt hle)) (by omega)
      · rw [h] at hdn
        omega
    · intro h
      rcases Nat.lt_or_ge (n / 256 ^ w) (m / 256 ^ w) with hlt | hge
      · exact .inl hlt
      · have heq : n / 256 ^ w = m / 256 ^ w :=
          Nat.le_antisymm (Nat.div_le_div_right h.le) hge
        rw [heq] at hdn
        exact .inr ⟨heq, by omega⟩

theorem toBE_append_lt_iff (hn : n < 256 ^ w) (hm : m < 256 ^ w) (as bs : Bytes) :
    toBE w n ++ as < toBE w m ++ bs ↔ n < m ∨ n = m ∧ as < bs := by
  rw [append_lt_append_iff (by simp), toBE_lt_iff hn hm]
  constructor
  · rintro (h | ⟨h, hl⟩)
    · exact .inl h
    · exact .inr ⟨toBE_inj hn hm h, hl⟩
  · rintro (h | ⟨rfl, hl⟩)
    · exact .inl h
    · exact .inr ⟨rfl, hl⟩

theorem prefix_of_between {α : Type} [LinearOrder α] {p x a y : List α} (hx : p <+: x)
    (hy : p <+: y) (hxa : x ≤ a) (hay : a ≤ y) : p <+: a := by
  induction p generalizing x a y with
  | nil => exact nil_prefix
  | cons c p ih =>
    obtain ⟨x, rfl⟩ := hx
    obtain ⟨y, rfl⟩ := hy
    rw [← not_lt] at hxa hay
    cases a with
    | nil => exact absurd (nil_lt_cons _ _) hxa
    | cons b a =>
      simp only [cons_append, cons_lt_cons_iff, not_or, not_and] at hxa hay
      have hb : c = b := le_antisymm (not_lt.mp hxa.1) (not_lt.mp hay.1)
      subst hb
      rw [cons_prefix_cons]
      exact ⟨rfl, ih (prefix_append p x) (prefix_append p y) (not_lt.mp (hxa.2 rfl)) (not_lt.mp (hay.2 rfl))⟩

theorem self_lt_append {pre rest : Bytes} (h : rest ≠ []) : pre < pre ++ rest := by
  have hl : _ → pre ++ [] < pre ++ rest := (append_lt_append_iff rfl).mpr
  rw [append_nil] at hl
  refine hl (.inr ⟨rfl, ?_⟩)
  cases rest with
  | nil => exact absurd rfl h
  | cons b rest => exact nil_lt_cons b rest

theorem toBE_ne_nil (h : 0 < w) : toBE w n ≠ [] := by
  intro hn
  have hl := length_toBE w n
  rw [hn, length_nil] at hl
  omega

theorem lt_append_zero_iff {x c : Bytes} : x < c ++ [0] ↔ x ≤ c := by
  rw [← not_lt]
  induction c generalizing x with
  | nil =>
    cases x with
    | nil => simp
    | cons a x => simp [cons_lt_cons_iff]
  | cons b c ih =>
    cases x with
    | nil => simp
    | cons a x =>
      rw [cons_append, cons_lt_cons_iff, cons_lt_cons_iff, ih]
      constructor
      · rintro (h | ⟨rfl, h⟩)
        · rintro (h' | ⟨rfl, _⟩)
          · exact absurd (h.trans h') (lt_irrefl _)
          · exact lt_irrefl _ h
        · rintro (h' | ⟨_, h'⟩)
          · exact lt_irrefl _ h'
          · exact h h'
      · intro h
        simp only [not_or, not_and, not_lt] at h
        rcases lt_or_eq_of_le h.1 with hlt | rfl
        · exact .inl hlt
        · exact .inr ⟨rfl, not_lt.mpr (h.2 rfl)⟩

end Endian
