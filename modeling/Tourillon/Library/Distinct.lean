import Tourillon.Library.Sequence
import Mathlib.Data.List.Rotate
import Mathlib.Data.Finset.Card
import Mathlib.Data.Finset.Dedup

namespace Distinct

open List

variable {α : Type} {keep : α → Bool} {limit : Nat}

def turn (l : List α) (start : Nat) : List α :=
  (range l.length).filterMap fun step => l[(start + step) % l.length]?

theorem filterMap_range_getElem? (l : List α) : ((range l.length).filterMap fun i => l[i]?) = l := by
  induction l with
  | nil => rfl
  | cons a l ih =>
    have hhead : (a :: l)[0]? = some a := rfl
    rw [length_cons, range_succ_eq_map, filterMap_cons, hhead, filterMap_map]
    exact congrArg (a :: ·) ih

theorem turn_eq_rotate (l : List α) (start : Nat) : turn l start = l.rotate start := by
  have hsteps : turn l start = (range (l.rotate start).length).filterMap fun i =>
      (l.rotate start)[i]? := by
    rw [turn, length_rotate]
    apply filterMap_congr
    intro step hstep
    rw [getElem?_rotate (mem_range.mp hstep), Nat.add_comm]
  rw [hsteps, filterMap_range_getElem?]

variable [DecidableEq α]

def firstDistinct (keep : α → Bool) (limit : Nat) : List α → List α → List α
  | [], found => found
  | a :: l, found =>
    if keep a ∧ a ∉ found then
      if (found ++ [a]).length = limit then found ++ [a]
      else firstDistinct keep limit l (found ++ [a])
    else firstDistinct keep limit l found

theorem firstDistinct_append {l found : List α} (h : found.length < limit) : firstDistinct keep limit l found =
      (found ++ (l.filter fun a => keep a ∧ a ∉ found).eraseDups).take limit := by
  induction l generalizing found with
  | nil => rw [firstDistinct, filter_nil, eraseDups_nil, append_nil, take_of_length_le h.le]
  | cons a l ih =>
    rw [firstDistinct]
    split
    · rename_i hkept
      have hnext : (l.filter fun b => keep b ∧ b ∉ found).filter (fun b => !b == a) =
          l.filter fun b => keep b ∧ b ∉ found ++ [a] := by
        rw [filter_filter]
        apply filter_congr
        intro b _
        by_cases hba : b = a <;> simp [hba]
      rw [filter_cons_of_pos (by simpa using hkept), eraseDups_cons, hnext,
        append_cons found a (eraseDups _)]
      split
      · rename_i hfull
        rw [← hfull, take_left]
      · rename_i hroom
        have hlt : (found ++ [a]).length < limit := by
          rw [length_append, length_singleton] at hroom ⊢
          omega
        rw [ih hlt]
    · rename_i hskipped
      rw [filter_cons_of_neg (by simpa using hskipped), ih h]

theorem firstDistinct_eq (h : 1 ≤ limit) (l : List α) :
    firstDistinct keep limit l [] = (l.filter keep).eraseDups.take limit := by
  rw [firstDistinct_append h, nil_append]
  simp

theorem length_eraseDups (l : List α) : l.eraseDups.length = l.toFinset.card := by
  have hsame : l.eraseDups.toFinset = l.toFinset := by
    ext a
    rw [mem_toFinset, mem_toFinset, mem_eraseDups]
  rw [← hsame]
  exact (toFinset_card_of_nodup (Sequence.nodup_eraseDups l)).symm

theorem nodup_firstDistinct {l found : List α} (h : found.Nodup) : (firstDistinct keep limit l found).Nodup := by
  induction l generalizing found with
  | nil => exact h
  | cons a l ih =>
    rw [firstDistinct]
    split
    · rename_i hkept
      have hnext : (found ++ [a]).Nodup := by
        rw [← concat_eq_append]
        exact h.concat hkept.2
      split
      · exact hnext
      · exact ih hnext
    · exact ih h

end Distinct
