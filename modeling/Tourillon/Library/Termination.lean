import Tourillon.Library.Program

namespace Prog

variable {σ ε α β γ : Type} {I : σ → Prop}

def Yields (I : σ → Prop) (x : Prog σ ε α) (Q : α → Prop) : Prop :=
  ∀ s, I s → ∃ a s', x s = (.ok a, s') ∧ I s' ∧ Q a

namespace Yields

theorem ret {a : α} {Q : α → Prop} (h : Q a) : Yields I (pure a : Prog σ ε α) Q :=
  fun s hs => ⟨a, s, rfl, hs, h⟩

theorem bind {x : Prog σ ε α} {f : α → Prog σ ε β} {M : α → Prop} {Q : β → Prop}
    (hx : Yields I x M) (hf : ∀ a, M a → Yields I (f a) Q) : Yields I (x >>= f) Q := by
  intro s hs
  obtain ⟨a, s', hrun, hs', ha⟩ := hx s hs
  obtain ⟨b, s'', hrest, hs'', hb⟩ := hf a ha s' hs'
  exact ⟨b, s'', (bind_ok hrun).trans hrest, hs'', hb⟩

theorem modify {f : σ → σ} (h : ∀ s, I s → I (f s)) : Yields I (Prog.modify f : Prog σ ε Unit) fun _ => True :=
  fun s hs => ⟨(), f s, rfl, h s hs, trivial⟩

theorem get : Yields I (Prog.get : Prog σ ε σ) I := fun s hs => ⟨s, s, rfl, hs, hs⟩

theorem lift {r : Except ε α} {Q : α → Prop} (h : ∃ a, r = .ok a ∧ Q a) :
    Yields I (Prog.lift r : Prog σ ε α) Q := by
  intro s hs
  obtain ⟨a, rfl, ha⟩ := h
  exact ⟨a, s, rfl, hs, ha⟩

theorem iterate {out : ε} {body : β → Prog σ ε (β ⊕ γ)} {J : β → Prop} (rank : β → Nat) {Q : γ → Prop}
    (h : ∀ b, J b → Yields I (body b) fun r => r.elim (fun b' => J b' ∧ rank b' < rank b) Q)
    {fuel : Nat} {b : β} (hb : J b) (hfuel : rank b < fuel) : Yields I (Prog.iterate out body fuel b) Q := by
  induction fuel generalizing b with
  | zero => exact absurd hfuel (Nat.not_lt_zero _)
  | succ fuel ih =>
    refine bind (h b hb) ?_
    intro r hr
    cases r with
    | inl b' => exact ih hr.1 (Nat.lt_of_lt_of_le hr.2 (Nat.le_of_lt_succ hfuel))
    | inr c => exact ret hr

theorem each {xs : List α} {f : α → Prog σ ε Unit} (h : ∀ x ∈ xs, Yields I (f x) fun _ => True) :
    Yields I (Prog.each xs f) fun _ => True := by
  induction xs with
  | nil => exact ret trivial
  | cons x xs ih =>
    refine bind (h x List.mem_cons_self) fun _ _ => ?_
    exact ih fun y hy => h y (List.mem_cons_of_mem _ hy)

end Yields

def Halts (I : σ → Prop) (out : ε) (x : Prog σ ε α) (Q : α → Prop) : Prop :=
  ∀ s, I s → I (x s).2 ∧ (x s).1 ≠ .error out ∧ ∀ a, (x s).1 = .ok a → Q a

namespace Halts

variable {out : ε}

theorem ret {a : α} {Q : α → Prop} (h : Q a) : Halts I out (pure a : Prog σ ε α) Q := by
  refine fun s hs => ⟨hs, nofun, ?_⟩
  intro b hb
  cases hb
  exact h

theorem lift {r : Except ε α} {Q : α → Prop} (hout : r ≠ .error out) (h : ∀ a, r = .ok a → Q a) :
    Halts I out (Prog.lift r : Prog σ ε α) Q := fun _ hs => ⟨hs, hout, h⟩

theorem bind {x : Prog σ ε α} {f : α → Prog σ ε β} {M : α → Prop} {Q : β → Prop}
    (hx : Halts I out x M) (hf : ∀ a, M a → Halts I out (f a) Q) : Halts I out (x >>= f) Q := by
  intro s hs
  obtain ⟨hs', hne, hok⟩ := hx s hs
  rcases hxs : x s with ⟨r, s'⟩
  rw [hxs] at hs' hne hok
  cases r with
  | error e =>
    rw [bind_error hxs]
    refine ⟨hs', ?_, nofun⟩
    intro heq
    cases heq
    exact hne rfl
  | ok a =>
    rw [bind_ok hxs]
    exact hf a (hok a rfl) s' hs'

theorem iterate {body : β → Prog σ ε (β ⊕ γ)} (rank : β → Nat) {Q : γ → Prop}
    (h : ∀ b, Halts I out (body b) fun r => r.elim (fun b' => rank b' < rank b) Q)
    {fuel : Nat} {b : β} (hfuel : rank b < fuel) : Halts I out (Prog.iterate out body fuel b) Q := by
  induction fuel generalizing b with
  | zero => exact absurd hfuel (Nat.not_lt_zero _)
  | succ fuel ih =>
    refine bind (h b) ?_
    intro r hr
    cases r with
    | inl b' => exact ih (Nat.lt_of_lt_of_le hr (Nat.le_of_lt_succ hfuel))
    | inr c => exact ret hr

theorem each {xs : List α} {f : α → Prog σ ε Unit} (h : ∀ x ∈ xs, Halts I out (f x) fun _ => True) :
    Halts I out (Prog.each xs f) fun _ => True := by
  induction xs with
  | nil => exact ret trivial
  | cons x xs ih =>
    refine bind (h x List.mem_cons_self) fun _ _ => ?_
    exact ih fun y hy => h y (List.mem_cons_of_mem _ hy)

end Halts

end Prog
