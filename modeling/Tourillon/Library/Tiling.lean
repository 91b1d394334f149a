import Mathlib.Algebra.GroupWithZero.Nat

namespace Tiling

variable {α : Type} {lo hi : α → Nat} {ss : List α} {a b : Nat}

inductive Tiles (lo hi : α → Nat) : Nat → List α → Nat → Prop where
  | nil (a : Nat) : Tiles lo hi a [] a
  | cons {s : α} {ss : List α} {b : Nat} (h : lo s ≤ hi s) (rest : Tiles lo hi (hi s + 1) ss b) :
    Tiles lo hi (lo s) (s :: ss) b

theorem Tiles.single {s : α} (ha : lo s = a) (h : lo s ≤ hi s) (hb : hi s + 1 = b) : Tiles lo hi a [s] b := by
  subst ha hb
  exact .cons h (.nil _)

theorem Tiles.append {c : Nat} {ts : List α} (h : Tiles lo hi a ss b) (h' : Tiles lo hi b ts c) :
    Tiles lo hi a (ss ++ ts) c := by
  induction h with
  | nil a => exact h'
  | cons hle _ ih => exact .cons hle (ih h')

theorem Tiles.le (h : Tiles lo hi a ss b) : a ≤ b := by
  induction h with
  | nil a => exact Nat.le_refl a
  | cons hle _ ih => omega

theorem Tiles.bounds (h : Tiles lo hi a ss b) : ∀ s ∈ ss, a ≤ lo s ∧ lo s ≤ hi s ∧ hi s < b := by
  induction h with
  | nil a => nofun
  | @cons s ss b hle hrest ih =>
    intro t ht
    rcases List.mem_cons.mp ht with rfl | ht
    · exact ⟨Nat.le_refl _, hle, hrest.le⟩
    · obtain ⟨hlow, hmid, hhigh⟩ := ih t ht
      exact ⟨by omega, hmid, hhigh⟩

theorem Tiles.sum_widths (h : Tiles lo hi a ss b) : (ss.map fun s => hi s - lo s + 1).sum + a = b := by
  induction h with
  | nil a => simp
  | cons hle _ ih =>
    rw [List.map_cons, List.sum_cons]
    omega

theorem Tiles.eq_nil (h : Tiles lo hi a ss a) : ss = [] := by
  cases ss with
  | nil => rfl
  | cons s ss =>
    obtain ⟨hlow, hmid, hhigh⟩ := h.bounds s List.mem_cons_self
    omega

theorem Tiles.pairwise (h : Tiles lo hi a ss b) : ss.Pairwise fun s t => hi s < lo t := by
  induction h with
  | nil a => exact .nil
  | cons hle hrest ih => exact List.pairwise_cons.mpr ⟨fun t ht => (hrest.bounds t ht).1, ih⟩

theorem Tiles.mem_iff (h : Tiles lo hi a ss b) (n : Nat) : (a ≤ n ∧ n < b) ↔ ∃ s ∈ ss, lo s ≤ n ∧ n ≤ hi s := by
  induction h with
  | nil a => simp
  | @cons s ss b hle hrest ih =>
    have hend := hrest.le
    constructor
    · rintro ⟨hlow, hhigh⟩
      rcases Nat.lt_or_ge (hi s) n with hlater | hhere
      · obtain ⟨t, ht, hin⟩ := ih.mp ⟨hlater, hhigh⟩
        exact ⟨t, List.mem_cons_of_mem _ ht, hin⟩
      · exact ⟨s, List.mem_cons_self, hlow, hhere⟩
    · rintro ⟨t, ht, hlow, hhigh⟩
      rcases List.mem_cons.mp ht with rfl | ht
      · exact ⟨hlow, by omega⟩
      · obtain ⟨hstart, hstop⟩ := ih.mpr ⟨t, ht, hlow, hhigh⟩
        exact ⟨by omega, hstop⟩

end Tiling
