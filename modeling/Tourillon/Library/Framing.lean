import Mathlib.Data.List.Basic

namespace Framing

open List

variable {α β : Type} {P : α → Prop} {f : α → List β} {xs ys : List α} {l r : List β}

structure SelfDelimiting (P : α → Prop) (f : α → List β) : Prop where
  peel : ∀ a b x y, P a → P b → f a ++ x = f b ++ y → a = b ∧ x = y
  nonempty : ∀ a, f a ≠ []

theorem exists_fork (hf : ∀ a, f a ≠ []) (h : xs.flatMap f = ys.flatMap f) (hne : xs ≠ ys) :
    ∃ common a b xs' ys', xs = common ++ a :: xs' ∧ ys = common ++ b :: ys' ∧ a ≠ b ∧
      f a ++ xs'.flatMap f = f b ++ ys'.flatMap f := by
  induction xs generalizing ys with
  | nil =>
    cases ys with
    | nil => exact absurd rfl hne
    | cons b ys =>
      rw [flatMap_nil, flatMap_cons] at h
      exact absurd (append_eq_nil_iff.mp h.symm).1 (hf b)
  | cons a xs ih =>
    cases ys with
    | nil =>
      rw [flatMap_nil, flatMap_cons] at h
      exact absurd (append_eq_nil_iff.mp h).1 (hf a)
    | cons b ys =>
      rw [flatMap_cons, flatMap_cons] at h
      by_cases hab : a = b
      · subst hab
        obtain ⟨common, c, d, xs', ys', rfl, rfl, hfork⟩ :=
          ih (append_cancel_left h) fun heq => hne (by rw [heq])
        exact ⟨a :: common, c, d, xs', ys', rfl, rfl, hfork⟩
      · exact ⟨[], a, b, xs, ys, rfl, rfl, hab, h⟩

theorem SelfDelimiting.flatMap_inj (hf : SelfDelimiting P f) (hxs : ∀ a ∈ xs, P a) (hys : ∀ a ∈ ys, P a)
    (h : xs.flatMap f = ys.flatMap f) : xs = ys := by
  by_contra hne
  obtain ⟨common, a, b, xs', ys', rfl, rfl, hab, heq⟩ := exists_fork hf.nonempty h hne
  exact hab (hf.peel a b _ _ (hxs a (by simp)) (hys b (by simp)) heq).1

theorem SelfDelimiting.terminated_inj (hf : SelfDelimiting P f) {stop : List β}
    (hstop : ∀ a x y, P a → f a ++ x ≠ stop ++ y) {x y : List β} (hxs : ∀ a ∈ xs, P a) (hys : ∀ a ∈ ys, P a)
    (h : xs.flatMap f ++ (stop ++ x) = ys.flatMap f ++ (stop ++ y)) : xs = ys ∧ x = y := by
  induction xs generalizing ys with
  | nil =>
    cases ys with
    | nil => exact ⟨rfl, append_cancel_left h⟩
    | cons b ys =>
      rw [flatMap_nil, nil_append, flatMap_cons, append_assoc] at h
      exact absurd h.symm (hstop b _ _ (hys b mem_cons_self))
  | cons a xs ih =>
    cases ys with
    | nil =>
      rw [flatMap_nil, nil_append, flatMap_cons, append_assoc] at h
      exact absurd h (hstop a _ _ (hxs a mem_cons_self))
    | cons b ys =>
      rw [flatMap_cons, flatMap_cons, append_assoc, append_assoc] at h
      obtain ⟨ha, htail⟩ := forall_mem_cons.mp hxs
      obtain ⟨hb, htail'⟩ := forall_mem_cons.mp hys
      obtain ⟨rfl, hrest⟩ := hf.peel a b _ _ ha hb h
      obtain ⟨rfl, hend⟩ := ih htail htail' hrest
      exact ⟨rfl, hend⟩

theorem splitAt_append {n : Nat} (h : l.length = n) : (l ++ r).splitAt n = (l, r) := by
  rw [splitAt_eq, take_left' h, drop_left' h]

theorem append_cons_inj_left {x : β} {l' r' : List β} (hl : x ∉ l) (hl' : x ∉ l')
    (h : l ++ x :: r = l' ++ x :: r') : l = l' ∧ r = r' := by
  induction l generalizing l' with
  | nil =>
    cases l' with
    | nil => simpa using h
    | cons b l' =>
      rw [nil_append, cons_append, cons.injEq] at h
      exact absurd (h.1 ▸ mem_cons_self ..) hl'
  | cons a l ih =>
    cases l' with
    | nil =>
      rw [nil_append, cons_append, cons.injEq] at h
      exact absurd (h.1 ▸ mem_cons_self ..) hl
    | cons b l' =>
      rw [cons_append, cons_append, cons.injEq] at h
      obtain ⟨rfl, hrest⟩ := h
      obtain ⟨rfl, hr⟩ := ih (fun hin => hl (mem_cons_of_mem _ hin))
        (fun hin => hl' (mem_cons_of_mem _ hin)) hrest
      exact ⟨rfl, hr⟩

end Framing
