import Tourillon.Library.Program

namespace Prog

variable {σ τ ε α β γ : Type}

def Lockstep (E R : σ → τ → Prop) (x : Prog σ ε α) (y : Prog τ ε α) (S : α → σ → τ → Prop) : Prop :=
  ∀ s t, R s t → (x s).1 = (y t).1 ∧ E (x s).2 (y t).2 ∧ ∀ a, (x s).1 = .ok a → S a (x s).2 (y t).2

namespace Lockstep

variable {E R : σ → τ → Prop} {S : α → σ → τ → Prop}

theorem ret {a : α} (h : ∀ s t, R s t → E s t ∧ S a s t) : Lockstep E R (pure a : Prog σ ε α) (pure a) S := by
  intro s t hst
  refine ⟨rfl, (h s t hst).1, ?_⟩
  intro b hb
  cases hb
  exact (h s t hst).2

theorem lift {r : Except ε α} (h : ∀ s t, R s t → E s t ∧ ∀ a, r = .ok a → S a s t) :
    Lockstep E R (Prog.lift r : Prog σ ε α) (Prog.lift r) S :=
  fun s t hst => ⟨rfl, h s t hst⟩

theorem modify {f : σ → σ} {g : τ → τ} {S : Unit → σ → τ → Prop}
    (h : ∀ s t, R s t → E (f s) (g t) ∧ S () (f s) (g t)) :
    Lockstep E R (Prog.modify f : Prog σ ε Unit) (Prog.modify g) S :=
  fun s t hst => ⟨rfl, (h s t hst).1, fun _ _ => (h s t hst).2⟩

theorem bind {x : Prog σ ε α} {y : Prog τ ε α} {f : α → Prog σ ε β} {g : α → Prog τ ε β}
    {M : α → σ → τ → Prop} {S : β → σ → τ → Prop} (hx : Lockstep E R x y M)
    (hf : ∀ a, Lockstep E (M a) (f a) (g a) S) : Lockstep E R (x >>= f) (y >>= g) S := by
  intro s t hst
  obtain ⟨heq, herr, hok⟩ := hx s t hst
  rcases hxs : x s with ⟨r, s'⟩
  rcases hyt : y t with ⟨r', t'⟩
  rw [hxs, hyt] at heq herr hok
  dsimp only at heq herr hok
  subst heq
  cases r with
  | error e =>
    rw [bind_error hxs, bind_error hyt]
    exact ⟨rfl, herr, nofun⟩
  | ok a =>
    rw [bind_ok hxs, bind_ok hyt]
    exact hf a s' t' (hok a rfl)

theorem iterate {out : ε} {body : β → Prog σ ε (β ⊕ γ)} {body' : β → Prog τ ε (β ⊕ γ)}
    {I : β → σ → τ → Prop} {S : γ → σ → τ → Prop} (hE : ∀ b s t, I b s t → E s t)
    (h : ∀ b, Lockstep E (I b) (body b) (body' b) fun r s t =>
      r.elim (fun b' => I b' s t) fun c => S c s t) (fuel : Nat) (b : β) :
    Lockstep E (I b) (Prog.iterate out body fuel b) (Prog.iterate out body' fuel b) S := by
  induction fuel generalizing b with
  | zero => exact fun s t hst => ⟨rfl, hE b s t hst, nofun⟩
  | succ fuel ih =>
    refine bind (M := fun r s t => E s t ∧ r.elim (fun b' => I b' s t) fun c => S c s t) ?_ fun r => ?_
    · intro s t hst
      obtain ⟨heq, herr, hok⟩ := h b s t hst
      exact ⟨heq, herr, fun r hr => ⟨herr, hok r hr⟩⟩
    · cases r with
      | inl b' => exact fun s t hst => ih b' s t hst.2
      | inr c => exact ret fun _ _ hst => hst

theorem each {xs : List α} {f : α → Prog σ ε Unit} {g : α → Prog τ ε Unit}
    (I : List α → σ → τ → Prop) (hE : ∀ rest s t, I rest s t → E s t)
    (h : ∀ x rest, Lockstep E (I (x :: rest)) (f x) (g x) fun _ => I rest) :
    Lockstep E (I xs) (Prog.each xs f) (Prog.each xs g) fun _ => I [] := by
  induction xs with
  | nil => exact ret fun s t hst => ⟨hE [] s t hst, hst⟩
  | cons x xs ih => exact bind (h x xs) fun _ => ih

end Lockstep

end Prog
