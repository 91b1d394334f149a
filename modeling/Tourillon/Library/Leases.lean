import Mathlib.Data.List.Basic
import Mathlib.Logic.Function.Basic
import Mathlib.Logic.Relation

namespace Leases

structure Book (κ : Type) where
  count : κ → Option Int
  next : Nat
  closed : List κ
  acquired : List κ
  released : List κ

variable {κ : Type} [DecidableEq κ]

inductive Move (serial : κ → Nat) (b : Book κ) : Book κ → Prop where
  | grant {k : κ} {n : Int} (h : b.count k = some n) :
      Move serial b { b with count := Function.update b.count k (some (n + 1)), acquired := k :: b.acquired }
  | enroll {k : κ} (h : serial k = b.next) :
      Move serial b { b with
        count := Function.update b.count k (some 1)
        next := b.next + 1
        acquired := k :: b.acquired }
  | refuse {k : κ} (h : serial k = b.next) : Move serial b { b with next := b.next + 1, closed := k :: b.closed }
  | giveBack {k : κ} {n : Int} (h : b.count k = some n) :
      Move serial b { b with count := Function.update b.count k (some (n - 1)), released := k :: b.released }
  | close {k : κ} (h : b.count k = some 0) :
      Move serial b { b with count := Function.update b.count k none, closed := k :: b.closed }

structure Balanced (serial : κ → Nat) (b : Book κ) : Prop where
  known : ∀ k n, b.count k = some n → serial k < b.next
  counts : ∀ k, (b.acquired.count k : Int) - b.released.count k = (b.count k).getD 0
  gone : ∀ k ∈ b.closed, serial k < b.next ∧ b.count k = none

variable {serial : κ → Nat} {b b' : Book κ} {k : κ}

theorem Balanced.fresh (h : Balanced serial b) (hk : serial k = b.next) : b.count k = none := by
  cases hcount : b.count k with
  | none => rfl
  | some n => exact absurd hk (Nat.ne_of_lt (h.known k n hcount))

theorem Balanced.update (h : Balanced serial b) (o : Option Int)
    (hcount : b'.count = Function.update b.count k o) (hnext : b.next ≤ b'.next) (hserial : serial k < b'.next)
    (hself : (b'.acquired.count k : Int) - b'.released.count k = o.getD 0)
    (hother : ∀ x, x ≠ k → b'.acquired.count x = b.acquired.count x ∧ b'.released.count x = b.released.count x)
    (hclosed : ∀ x ∈ b'.closed, x ∈ b.closed ∧ x ≠ k ∨ x = k ∧ o = none) : Balanced serial b' where
  known x n hx := by
    rcases eq_or_ne x k with rfl | hne
    · exact hserial
    · rw [hcount, Function.update_of_ne hne] at hx
      exact Nat.lt_of_lt_of_le (h.known x n hx) hnext
  counts x := by
    rcases eq_or_ne x k with rfl | hne
    · rw [hself, hcount, Function.update_self]
    · rw [(hother x hne).1, (hother x hne).2, hcount, Function.update_of_ne hne]
      exact h.counts x
  gone x hx := by
    rcases hclosed x hx with ⟨hold, hne⟩ | ⟨rfl, hnone⟩
    · rw [hcount, Function.update_of_ne hne]
      exact ⟨Nat.lt_of_lt_of_le (h.gone x hold).1 hnext, (h.gone x hold).2⟩
    · exact ⟨hserial, by rw [hcount, Function.update_self, hnone]⟩

theorem count_cons_ne {l : List κ} {x : κ} (h : x ≠ k) : (k :: l).count x = l.count x :=
  List.count_cons_of_ne (Ne.symm h)

theorem Balanced.move (h : Balanced serial b) (hmove : Move serial b b') : Balanced serial b' := by
  have hopen {k : κ} {n : Int} (hk : b.count k = some n) (x : κ) (hx : x ∈ b.closed) : x ≠ k := by
    rintro rfl
    rw [(h.gone x hx).2] at hk
    cases hk
  cases hmove with
  | @grant k n hk =>
    have hcount := h.counts k
    refine h.update _ rfl (Nat.le_refl _) (h.known k n hk) ?_ (fun x hx => ⟨count_cons_ne hx, rfl⟩) ?_
    · rw [hk] at hcount
      simp only [List.count_cons_self, Option.getD_some] at hcount ⊢
      omega
    · exact fun x hx => .inl ⟨hx, hopen hk x hx⟩
  | @enroll k hk =>
    have hcount := h.counts k
    refine h.update _ rfl (Nat.le_succ _) (hk ▸ Nat.lt_succ_self _) ?_ (fun x hx => ⟨count_cons_ne hx, rfl⟩) ?_
    · rw [h.fresh hk] at hcount
      simp only [List.count_cons_self, Option.getD_some, Option.getD_none] at hcount ⊢
      omega
    · intro x hx
      refine .inl ⟨hx, ?_⟩
      rintro rfl
      exact absurd hk (Nat.ne_of_lt (h.gone x hx).1)
  | @refuse k hk =>
    have hsame : b.count = Function.update b.count k none := by rw [← h.fresh hk, Function.update_eq_self]
    refine h.update none hsame (Nat.le_succ _) (hk ▸ Nat.lt_succ_self _) ?_ (fun _ _ => ⟨rfl, rfl⟩) ?_
    · rw [h.counts, h.fresh hk]
    · intro x hx
      rcases eq_or_ne x k with rfl | hne
      · exact .inr ⟨rfl, rfl⟩
      · exact .inl ⟨List.mem_of_ne_of_mem hne hx, hne⟩
  | @giveBack k n hk =>
    have hcount := h.counts k
    refine h.update _ rfl (Nat.le_refl _) (h.known k n hk) ?_ (fun x hx => ⟨rfl, count_cons_ne hx⟩) ?_
    · rw [hk] at hcount
      simp only [List.count_cons_self, Option.getD_some] at hcount ⊢
      omega
    · exact fun x hx => .inl ⟨hx, hopen hk x hx⟩
  | @close k hk =>
    refine h.update none rfl (Nat.le_refl _) (h.known k 0 hk) ?_ (fun _ _ => ⟨rfl, rfl⟩) ?_
    · rw [h.counts, hk]
      rfl
    · intro x hx
      rcases eq_or_ne x k with rfl | hne
      · exact .inr ⟨rfl, rfl⟩
      · exact .inl ⟨List.mem_of_ne_of_mem hne hx, hne⟩

theorem Balanced.moves (h : Balanced serial b) (hmoves : Relation.ReflTransGen (Move serial) b b') :
    Balanced serial b' := by
  induction hmoves with
  | refl => exact h
  | tail _ hmove ih => exact ih.move hmove

end Leases
