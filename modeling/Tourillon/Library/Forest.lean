import Mathlib.Algebra.Order.Ring.GeomSum
import Mathlib.Data.Finset.Union
import Mathlib.Data.List.Chain
import Mathlib.Logic.Relation

namespace Forest

open Finset Relation

variable {parent : Nat → Option Nat} {rank : Nat → Nat} {n b i : Nat}

def Begets (parent : Nat → Option Nat) (i j : Nat) : Prop := parent j = some i

instance : DecidableRel (Begets parent) := fun i j => inferInstanceAs (Decidable (parent j = some i))

def children (parent : Nat → Option Nat) (n i : Nat) : Finset Nat := (range n).filter (Begets parent i)

theorem card_children_eq_countP {α : Type} (l : List α) (f : α → Option Nat) (i : Nat) :
    (children (fun j => l[j]?.bind f) l.length i).card = l.countP fun a => f a = some i := by
  induction l using List.reverseRecOn with
  | nil => rfl
  | append_singleton l a ih =>
    have hearlier : (range l.length).filter (Begets (fun j => (l ++ [a])[j]?.bind f) i) =
        children (fun j => l[j]?.bind f) l.length i := by
      refine filter_congr fun j hj => ?_
      rw [Begets, Begets, List.getElem?_append_left (mem_range.mp hj)]
    have hlast : Begets (fun j => (l ++ [a])[j]?.bind f) i l.length ↔ f a = some i := by simp [Begets]
    rw [children, List.length_append, List.length_singleton, range_add_one, filter_insert, hearlier,
      List.countP_append, List.countP_singleton, ← ih]
    by_cases ha : f a = some i
    · rw [if_pos (hlast.mpr ha), if_pos (decide_eq_true ha), card_insert_of_notMem]
      intro hmem
      exact notMem_range_self (mem_filter.mp hmem).1
    · rw [if_neg fun h => ha (hlast.mp h), if_neg (by simpa using ha)]
      rfl

open Classical in
noncomputable def offspring (parent : Nat → Option Nat) (n i : Nat) : Finset Nat :=
  (range n).filter (ReflTransGen (Begets parent) i)

structure Ranked (parent : Nat → Option Nat) (rank : Nat → Nat) : Prop where
  falls : ∀ i j, Begets parent i j → rank j < rank i
  positive : ∀ i j, Begets parent i j → 0 < rank j

theorem Ranked.chain_length (h : Ranked parent rank) (hi : 0 < rank i) {line : List Nat}
    (hline : (i :: line).IsChain (Begets parent)) : (i :: line).length ≤ rank i := by
  induction line generalizing i with
  | nil => exact hi
  | cons j line ih =>
    rw [List.isChain_cons_cons] at hline
    have hrest := ih (h.positive i j hline.1) hline.2
    have hfalls := h.falls i j hline.1
    rw [List.length_cons]
    omega

theorem mem_offspring {j : Nat} : j ∈ offspring parent n i ↔ j < n ∧ ReflTransGen (Begets parent) i j := by
  simp [offspring]

theorem offspring_subset (hbound : ∀ i j, Begets parent i j → j < n) :
    offspring parent n i ⊆ insert i ((children parent n i).biUnion (offspring parent n)) := by
  intro j hj
  obtain ⟨hn, hdescends⟩ := mem_offspring.mp hj
  rcases ReflTransGen.cases_head hdescends with rfl | ⟨k, hk, hrest⟩
  · exact mem_insert_self _ _
  · refine mem_insert_of_mem (mem_biUnion.mpr ⟨k, ?_, mem_offspring.mpr ⟨hn, hrest⟩⟩)
    exact mem_filter.mpr ⟨mem_range.mpr (hbound i k hk), hk⟩

theorem Ranked.card_offspring_le (h : Ranked parent rank) (hbound : ∀ i j, Begets parent i j → j < n)
    (hchildren : ∀ i, (children parent n i).card ≤ b) (hi : 0 < rank i) :
    (offspring parent n i).card ≤ ∑ d ∈ range (rank i), b ^ d := by
  induction hrank : rank i using Nat.strong_induction_on generalizing i with
  | _ r ih =>
    subst hrank
    obtain ⟨r, hr⟩ := Nat.exists_eq_succ_of_ne_zero hi.ne'
    have heach : ∀ j ∈ children parent n i, (offspring parent n j).card ≤ ∑ d ∈ range r, b ^ d := by
      intro j hj
      have hbegets := (mem_filter.mp hj).2
      have hfalls := h.falls i j hbegets
      calc (offspring parent n j).card
          ≤ ∑ d ∈ range (rank j), b ^ d := ih (rank j) hfalls (h.positive i j hbegets) rfl
        _ ≤ ∑ d ∈ range r, b ^ d := by
          refine sum_le_sum_of_subset (range_subset_range.mpr ?_)
          omega
    calc (offspring parent n i).card
        ≤ (insert i ((children parent n i).biUnion (offspring parent n))).card :=
          card_le_card (offspring_subset hbound)
      _ ≤ ((children parent n i).biUnion (offspring parent n)).card + 1 := card_insert_le _ _
      _ ≤ (children parent n i).card * (∑ d ∈ range r, b ^ d) + 1 :=
          Nat.add_le_add_right (card_biUnion_le_card_mul _ _ _ heach) 1
      _ ≤ b * (∑ d ∈ range r, b ^ d) + 1 := Nat.add_le_add_right (Nat.mul_le_mul_right _ (hchildren i)) 1
      _ = ∑ d ∈ range (rank i), b ^ d := by rw [hr, geom_sum_succ]

end Forest
