import Mathlib.Algebra.GroupWithZero.Nat
import Mathlib.Data.List.Flatten
import Mathlib.Data.List.Induction

namespace Greedy

open List

structure Bin (β : Type) where
  done : List (List β)
  current : List β
  size : Nat

def Bin.parts {β : Type} (s : Bin β) : List (List β) := if s.current.isEmpty then s.done else s.done ++ [s.current]

variable {α β : Type} {out : α → List β} (cost : α → Nat) (full : List β → Prop) [DecidablePred full] (limit : Nat)

variable (out) in
def add (s : Bin β) (a : α) : Bin β :=
  if s.current ≠ [] ∧ (full s.current ∨ s.size + cost a > limit) then
    ⟨s.done ++ [s.current], out a, cost a⟩
  else ⟨s.done, s.current ++ out a, s.size + cost a⟩

theorem flatMap_eq_nil {l : List α} (h : ∀ a ∈ l, out a ≠ []) : l.flatMap out = [] ↔ l = [] := by
  rw [flatMap_eq_nil_iff]
  constructor
  · intro hnil
    exact eq_nil_iff_forall_not_mem.mpr fun a ha => h a ha (hnil a ha)
  · rintro rfl
    exact forall_mem_nil _

variable {cost full limit} in
theorem exists_packed {items : List α} {Q : List α → Prop} (hout : ∀ a ∈ items, out a ≠ []) (hone : ∀ a, Q [a])
    (hsnoc : ∀ b a, Q b → ¬ full (b.flatMap out) → (b.map cost).sum + cost a ≤ limit → Q (b ++ [a])) :
    ∃ (blocks : List (List α)) (last : List α), items.foldl (add out cost full limit) ⟨[], [], 0⟩ =
        ⟨blocks.map fun b => b.flatMap out, last.flatMap out, (last.map cost).sum⟩ ∧
      blocks.flatten ++ last = items ∧ (∀ b ∈ blocks, Q b) ∧ (last ≠ [] → Q last) := by
  induction items using reverseRecOn with
  | nil => exact ⟨[], [], rfl, rfl, forall_mem_nil _, fun h => absurd rfl h⟩
  | append_singleton items a ih =>
    obtain ⟨blocks, last, hfold, rfl, hblocks, hlast⟩ := ih fun b hb => hout b (mem_append_left _ hb)
    have hempty : last.flatMap out = [] ↔ last = [] := flatMap_eq_nil fun x hx => hout x (by simp [hx])
    rw [foldl_append, hfold, foldl_cons, foldl_nil, add]
    split
    · rename_i hclose
      refine ⟨blocks ++ [last], [a], by simp, by simp, ?_, fun _ => hone a⟩
      exact forall_mem_append.mpr ⟨hblocks, forall_mem_singleton.mpr (hlast (mt hempty.mpr hclose.1))⟩
    · rename_i hkeep
      refine ⟨blocks, last ++ [a], by simp, by simp, hblocks, fun _ => ?_⟩
      rcases eq_or_ne last [] with rfl | hsome
      · exact hone a
      · rw [not_and, not_or] at hkeep
        obtain ⟨hfull, hsize⟩ := hkeep (mt hempty.mp hsome)
        exact hsnoc last a (hlast hsome) hfull (Nat.not_lt.mp hsize)

theorem exists_blocks {items : List α} (hout : ∀ a ∈ items, out a ≠ []) {Q : List α → Prop} (hone : ∀ a, Q [a])
    (hsnoc : ∀ b a, Q b → ¬ full (b.flatMap out) → (b.map cost).sum + cost a ≤ limit → Q (b ++ [a])) :
    ∃ blocks : List (List α),
      (items.foldl (add out cost full limit) ⟨[], [], 0⟩).parts = blocks.map (fun b => b.flatMap out) ∧
      blocks.flatten = items ∧ ∀ b ∈ blocks, Q b := by
  obtain ⟨blocks, last, hfold, rfl, hblocks, hlast⟩ := exists_packed hout hone hsnoc
  have hempty : last.flatMap out = [] ↔ last = [] := flatMap_eq_nil fun x hx => hout x (mem_append_right _ hx)
  rw [hfold, Bin.parts]
  split
  · rename_i hnil
    refine ⟨blocks, rfl, ?_, hblocks⟩
    rw [hempty.mp (isEmpty_iff.mp hnil), append_nil]
  · rename_i hsome
    refine ⟨blocks ++ [last], by simp, by simp, ?_⟩
    have hne : last ≠ [] := fun hnil => hsome (isEmpty_iff.mpr (hempty.mpr hnil))
    exact forall_mem_append.mpr ⟨hblocks, forall_mem_singleton.mpr (hlast hne)⟩

end Greedy
