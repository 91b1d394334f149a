import Tourillon.Library.Program
import Mathlib.Logic.Relation

structure Protocol (σ : Type) where
  inv : σ → Prop
  move : σ → σ → Prop
  keeps : ∀ {s s' : σ}, inv s → move s s' → inv s'

namespace Protocol

open Prog

variable {σ ε α β γ : Type} (P : Protocol σ) {K : σ → Prop} {s s' : σ} {L : σ → Prop}

def Reach : σ → σ → Prop := Relation.ReflTransGen P.move

def Stable (K : σ → Prop) : Prop := ∀ s s', P.inv s → P.move s s' → K s → K s'

def Spec (A : σ → Prop) (x : Prog σ ε α) (Q : α → σ → Prop) : Prop :=
  ∀ s, P.inv s → A s → P.Reach s (x s).2 ∧ ∀ a, (x s).1 = .ok a → Q a (x s).2

variable {P}

theorem Reach.inv (h : P.Reach s s') (hs : P.inv s) : P.inv s' := by
  induction h with
  | refl => exact hs
  | tail _ hmove ih => exact P.keeps ih hmove

theorem Stable.reach (hK : P.Stable K) (h : P.Reach s s') (hs : P.inv s) (hk : K s) : K s' := by
  induction h with
  | refl => exact hk
  | tail hreach hmove ih => exact hK _ _ (Reach.inv hreach hs) hmove ih

theorem Stable.const (p : Prop) : P.Stable fun _ => p := fun _ _ _ _ hp => hp

theorem Stable.and (hK : P.Stable K) (hL : P.Stable L) : P.Stable fun s => K s ∧ L s :=
  fun s s' hs hm h => ⟨hK s s' hs hm h.1, hL s s' hs hm h.2⟩

theorem Stable.or (hK : P.Stable K) (hL : P.Stable L) : P.Stable fun s => K s ∨ L s :=
  fun s s' hs hm h => h.imp (hK s s' hs hm) (hL s s' hs hm)

theorem Stable.imp {p : Prop} (hK : P.Stable K) : P.Stable fun s => p → K s :=
  fun s s' hs hm h hp => hK s s' hs hm (h hp)

theorem Stable.exists {ι : Type} {K : ι → σ → Prop} (hK : ∀ i, P.Stable (K i)) : P.Stable fun s => ∃ i, K i s := by
  intro s s' hs hm ⟨i, hi⟩
  exact ⟨i, hK i s s' hs hm hi⟩

theorem Stable.forall {ι : Sort*} {K : ι → σ → Prop} (hK : ∀ i, P.Stable (K i)) : P.Stable fun s => ∀ i, K i s :=
  fun s s' hs hm h i => hK i s s' hs hm (h i)

namespace Spec

variable {A B : σ → Prop} {Q T : α → σ → Prop} {x : Prog σ ε α} {f : α → Prog σ ε β} {xs : List α} {e : ε}
  {c : Prop} {M : α → σ → Prop}

theorem pre (h : P.Spec A x Q) (hp : ∀ s, P.inv s → B s → A s) :
    P.Spec B x Q := fun s hs hpre => h s hs (hp s hs hpre)

theorem post (h : P.Spec A x Q) (hq : ∀ a s, P.inv s → Q a s → T a s) : P.Spec A x T := by
  intro s hs hpre
  obtain ⟨hr, ha⟩ := h s hs hpre
  exact ⟨hr, fun a hx => hq a _ (hr.inv hs) (ha a hx)⟩

theorem anywhere (h : P.Spec (fun _ => True) x Q) : P.Spec A x Q := h.pre fun _ _ _ => trivial

theorem assume {p : Prop} (hp : ∀ s, P.inv s → A s → p) (h : p → P.Spec A x Q) :
    P.Spec A x Q := fun s hs hA => h (hp s hs hA) s hs hA

theorem keep (hA : P.Stable A) (h : P.Spec A x Q) : P.Spec A x fun a s => A s ∧ Q a s := by
  intro s hs hpre
  obtain ⟨hr, ha⟩ := h s hs hpre
  exact ⟨hr, fun a hx => ⟨hA.reach hr hs hpre, ha a hx⟩⟩

theorem act (h : ∀ s, P.inv s → A s → ((x s).2 = s ∨ P.move s (x s).2) ∧ ∀ a, (x s).1 = .ok a → Q a (x s).2) :
    P.Spec A x Q := by
  intro s hs hpre
  obtain ⟨hm, ha⟩ := h s hs hpre
  refine ⟨?_, ha⟩
  rcases hm with hm | hm
  · rw [hm]
    exact Relation.ReflTransGen.refl
  · exact Relation.ReflTransGen.single hm

theorem ret {a : α} (h : ∀ s, P.inv s → A s → Q a s) : P.Spec A (pure a : Prog σ ε α) Q := by
  refine act fun s hs hpre => ⟨.inl rfl, ?_⟩
  intro b hb
  cases hb
  exact h s hs hpre

theorem raise : P.Spec A (raise e : Prog σ ε α) Q := by
  refine act fun s hs hpre => ⟨.inl rfl, ?_⟩
  intro b hb
  cases hb

theorem lift {r : Except ε α} (h : ∀ a s, P.inv s → A s → r = .ok a → Q a s) : P.Spec A (lift r : Prog σ ε α) Q :=
  act fun s hs hpre => ⟨.inl rfl, fun a ha => h a s hs hpre ha⟩

theorem get {Q : σ → σ → Prop} (h : ∀ s, P.inv s → A s → Q s s) : P.Spec A (get : Prog σ ε σ) Q := by
  refine act fun s hs hpre => ⟨.inl rfl, ?_⟩
  intro b hb
  cases hb
  exact h s hs hpre

theorem modify {f : σ → σ} {Q : Unit → σ → Prop}
    (h : ∀ s, P.inv s → A s → (f s = s ∨ P.move s (f s)) ∧ Q () (f s)) : P.Spec A (modify f : Prog σ ε Unit) Q :=
  act fun s hs hpre => ⟨(h s hs hpre).1, fun _ _ => (h s hs hpre).2⟩

theorem check [Decidable c] {Q : Unit → σ → Prop} (h : ∀ s, P.inv s → A s → ¬ c → Q () s) :
    P.Spec A (Prog.check c e : Prog σ ε Unit) Q := by
  by_cases hc : c
  · rw [Prog.check, if_pos hc]
    exact raise
  · rw [Prog.check, if_neg hc]
    exact ret fun s hs hpre => h s hs hpre hc

theorem guard [Decidable c] : P.Spec A (Prog.check c e : Prog σ ε Unit) fun _ => A := check fun _ _ h _ => h

theorem whenever [Decidable c] {x : Prog σ ε Unit} {Q : Unit → σ → Prop} (h : c → P.Spec A x Q)
    (hn : ∀ s, P.inv s → A s → ¬ c → Q () s) : P.Spec A (Prog.whenever c x) Q := by
  by_cases hc : c
  · rw [Prog.whenever, if_pos hc]
    exact h hc
  · rw [Prog.whenever, if_neg hc]
    exact ret fun s hs hpre => hn s hs hpre hc

theorem bind {Q : β → σ → Prop} (hx : P.Spec A x M) (hf : ∀ a, P.Spec (M a) (f a) Q) : P.Spec A (x >>= f) Q := by
  intro s hs hpre
  obtain ⟨hr, ha⟩ := hx s hs hpre
  rcases hxs : x s with ⟨r, s'⟩
  rw [hxs] at hr ha
  cases r with
  | ok a =>
    obtain ⟨hr', ha'⟩ := hf a s' (hr.inv hs) (ha a rfl)
    rw [bind_ok hxs]
    exact ⟨hr.trans hr', ha'⟩
  | error e =>
    rw [bind_error hxs]
    refine ⟨hr, ?_⟩
    intro b hb
    cases hb

theorem seq {Q : β → σ → Prop} (hA : P.Stable A) (hx : P.Spec A x M)
    (hf : ∀ a, P.Spec (fun s => A s ∧ M a s) (f a) Q) : P.Spec A (x >>= f) Q := by
  exact bind (hx.keep hA) hf

theorem each {f : α → Prog σ ε Unit} (I : List α → σ → Prop)
    (h : ∀ done x rest, xs = done ++ x :: rest → P.Spec (I done) (f x) fun _ => I (done ++ [x])) :
    P.Spec (I []) (Prog.each xs f) fun _ => I xs := by
  have hgen : ∀ rest done, xs = done ++ rest →
      P.Spec (I done) (Prog.each rest f) fun _ => I xs := by
    intro rest
    induction rest with
    | nil =>
      intro done hxs
      rw [List.append_nil] at hxs
      subst hxs
      exact ret fun _ _ hs => hs
    | cons x rest ih =>
      intro done hxs
      refine bind (h done x rest hxs) fun _ => ?_
      exact ih (done ++ [x]) (by simp [hxs])
  exact hgen xs [] rfl

theorem each_of_stable {f : α → Prog σ ε Unit} {K : α → σ → Prop} (hA : P.Stable A) (hK : ∀ x, P.Stable (K x))
    (h : ∀ x ∈ xs, P.Spec A (f x) fun _ => K x) :
    P.Spec A (Prog.each xs f) fun _ s => A s ∧ ∀ x, x ∈ xs → K x s := by
  refine (each (fun done s => A s ∧ ∀ x, x ∈ done → K x s) ?_).pre ?_
  · intro done x rest hsplit
    have hx : x ∈ xs := by
      rw [hsplit]
      exact List.mem_append_right _ List.mem_cons_self
    have hdone : P.Stable fun s => A s ∧ ∀ y, y ∈ done → K y s := hA.and (Stable.forall fun y => (hK y).imp)
    refine (keep hdone ((h x hx).pre fun s _ hs => hs.1)).post ?_
    rintro _ s _ ⟨⟨hs, hbefore⟩, hnow⟩
    refine ⟨hs, ?_⟩
    intro y hy
    rcases List.mem_append.mp hy with hy | hy
    · exact hbefore y hy
    · rw [List.mem_singleton.mp hy]
      exact hnow
  · intro s _ hs
    exact ⟨hs, nofun⟩

theorem every {f : α → Prog σ ε Bool} (hA : P.Stable A) (h : ∀ x ∈ xs, P.Spec A (f x) fun _ _ => True) :
    P.Spec A (every xs f) fun _ _ => True := by
  induction xs with
  | nil => exact ret fun _ _ _ => trivial
  | cons x xs ih =>
    refine seq hA (h x List.mem_cons_self) fun ok => ?_
    cases ok with
    | true =>
      refine (ih fun y hy => h y (List.mem_cons_of_mem _ hy)).pre ?_
      exact fun _ _ hs => hs.1
    | false => exact ret fun _ _ _ => trivial

theorem collect (I : List (α × β) → σ → Prop)
    (h : ∀ done x, x ∈ xs → P.Spec (I done) (f x) fun b => I (done ++ [(x, b)])) :
    P.Spec (I []) (Prog.collect xs f) fun bs s => bs.length = xs.length ∧ I (xs.zip bs) s := by
  have hgen : ∀ rest, (∀ x ∈ rest, x ∈ xs) → ∀ done,
      P.Spec (I done) (Prog.collect rest f)
        fun bs s => bs.length = rest.length ∧ I (done ++ rest.zip bs) s := by
    intro rest
    induction rest with
    | nil =>
      intro _ done
      refine ret fun s _ hs => ⟨rfl, ?_⟩
      simpa using hs
    | cons x rest ih =>
      intro hsub done
      refine bind (h done x (hsub x (by simp))) fun b => ?_
      refine bind (ih (fun y hy => hsub y (by simp [hy])) (done ++ [(x, b)])) fun bs => ?_
      refine ret fun s _ hs => ⟨by simp [hs.1], ?_⟩
      simpa using hs.2
  simpa using hgen xs (fun _ hx => hx) []

theorem iterate {out : ε} {body : β → Prog σ ε (β ⊕ γ)} {I : β → σ → Prop} {Q : γ → σ → Prop}
    (h : ∀ b, P.Spec (I b) (body b) fun r s => r.elim (fun b' => I b' s) fun c => Q c s)
    (fuel : Nat) (b : β) : P.Spec (I b) (iterate out body fuel b) Q := by
  induction fuel generalizing b with
  | zero => exact raise
  | succ fuel ih =>
    refine bind (h b) fun r => ?_
    cases r with
    | inl b' => exact ih b'
    | inr c => exact ret fun _ _ hs => hs

theorem attempt (h : P.Spec A x Q) : P.Spec A (attempt x) fun r s => ∀ a, r = .ok a → Q a s := by
  intro s hs hpre
  obtain ⟨hr, ha⟩ := h s hs hpre
  refine ⟨hr, ?_⟩
  intro r hr' a hra
  cases hr'
  exact ha a hra

end Spec

end Protocol
