import Mathlib.Data.List.Basic

def Prog (σ ε α : Type) : Type := σ → Except ε α × σ

namespace Prog

variable {σ ε α β γ : Type} {x : Prog σ ε α} {s s' : σ} {f : α → Prog σ ε β} {a : α} {e : ε} {δ : Type}

instance : Monad (Prog σ ε) where
  pure a := fun s => (.ok a, s)
  bind x f := fun s =>
    match x s with
    | (.ok a, s') => f a s'
    | (.error e, s') => (.error e, s')

theorem bind_ok (h : x s = (.ok a, s')) : (x >>= f) s = f a s' := by
  change (match x s with
    | (.ok a, s') => f a s'
    | (.error e, s') => (.error e, s')) = _
  rw [h]

theorem bind_error (h : x s = (.error e, s')) : (x >>= f) s = (.error e, s') := by
  change (match x s with
    | (.ok a, s') => f a s'
    | (.error e, s') => (.error e, s')) = _
  rw [h]

theorem of_bind_ok {s'' : σ} {b : β} (h : (x >>= f) s = (.ok b, s'')) :
    ∃ a s', x s = (.ok a, s') ∧ f a s' = (.ok b, s'') := by
  rcases hx : x s with ⟨r, s'⟩
  cases r with
  | error e =>
    rw [bind_error hx] at h
    cases h
  | ok a =>
    rw [bind_ok hx] at h
    exact ⟨a, s', rfl, h⟩

theorem bind_assoc (x : Prog σ ε α) (f : α → Prog σ ε β) (g : β → Prog σ ε γ) :
    (x >>= f) >>= g = x >>= fun a => f a >>= g := by
  funext s
  rcases hx : x s with ⟨r, s'⟩
  cases r with
  | error e => rw [bind_error hx, bind_error (bind_error hx)]
  | ok a =>
    rw [bind_ok hx]
    rcases hf : f a s' with ⟨r, s''⟩
    cases r with
    | error e => rw [bind_error hf, bind_error ((bind_ok hx).trans hf)]
    | ok b => rw [bind_ok hf, bind_ok ((bind_ok hx).trans hf)]

def raise (e : ε) : Prog σ ε α := fun s => (.error e, s)

def get : Prog σ ε σ := fun s => (.ok s, s)

def modify (f : σ → σ) : Prog σ ε Unit := fun s => (.ok (), f s)

def lift (r : Except ε α) : Prog σ ε α := fun s => (r, s)

def attempt (x : Prog σ ε α) : Prog σ ε (Except ε α) := fun s =>
  match x s with
  | (r, s') => (.ok r, s')

def mapError {δ : Type} (f : ε → δ) (x : Prog σ ε α) : Prog σ δ α := fun s =>
  match x s with
  | (r, s') => (r.mapError f, s')

theorem mapError_ok {f : ε → δ} (h : x s = (.ok a, s')) : mapError f x s = (.ok a, s') := by
  rw [mapError, h]
  rfl

theorem mapError_error {f : ε → δ} (h : x s = (.error e, s')) : mapError f x s = (.error (f e), s') := by
  rw [mapError, h]
  rfl

def check (c : Prop) [Decidable c] (e : ε) : Prog σ ε Unit := if c then raise e else pure ()

def whenever (c : Prop) [Decidable c] (x : Prog σ ε Unit) : Prog σ ε Unit := if c then x else pure ()

theorem of_whenever_ok {c : Prop} [Decidable c] {x : Prog σ ε Unit} (h : whenever c x s = (.ok (), s')) :
    (c ∧ x s = (.ok (), s')) ∨ (¬ c ∧ s' = s) := by
  unfold whenever at h
  split at h
  · rename_i hc
    exact .inl ⟨hc, h⟩
  · rename_i hc
    cases h
    exact .inr ⟨hc, rfl⟩

def each (xs : List α) (f : α → Prog σ ε Unit) : Prog σ ε Unit :=
  match xs with
  | [] => pure ()
  | x :: xs => do
    f x
    each xs f

def collect (xs : List α) (f : α → Prog σ ε β) : Prog σ ε (List β) :=
  match xs with
  | [] => pure []
  | x :: xs => do
    let b ← f x
    let bs ← collect xs f
    pure (b :: bs)

def every (xs : List α) (f : α → Prog σ ε Bool) : Prog σ ε Bool :=
  match xs with
  | [] => pure true
  | x :: xs => do
    let ok ← f x
    if ok then every xs f else pure false

def zoom {τ : Type} (view : σ → τ) (update : σ → τ → σ) (x : Prog τ ε α) : Prog σ ε α := fun s =>
  match x (view s) with
  | (r, t) => (r, update s t)

theorem of_zoom_ok {τ : Type} {view : σ → τ} {update : σ → τ → σ} {x : Prog τ ε α}
    (h : zoom view update x s = (.ok a, s')) : ∃ t, x (view s) = (.ok a, t) ∧ s' = update s t := by
  unfold zoom at h
  rcases hx : x (view s) with ⟨r, t⟩
  rw [hx] at h
  cases h
  exact ⟨t, rfl, rfl⟩

def iterate (out : ε) (body : β → Prog σ ε (β ⊕ γ)) : Nat → β → Prog σ ε γ
  | 0, _ => raise out
  | fuel + 1, b => do
    match ← body b with
    | .inl b' => iterate out body fuel b'
    | .inr c => pure c

end Prog
