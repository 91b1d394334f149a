import Mathlib.Data.List.Forall2

namespace Exceptional

open List

variable {ε α β : Type} {f : α → Except ε β} {xs : List α} {ys : List β} {a : α} {g : α → β}

@[simp] theorem bind_eq_ok {x : Except ε α} {b : β} : x >>= f = .ok b ↔ ∃ a, x = .ok a ∧ f a = .ok b := by
  cases x with
  | error e =>
    constructor
    · intro h
      cases h
    · rintro ⟨_, h, _⟩
      cases h
  | ok a => exact ⟨fun h => ⟨a, rfl, h⟩, fun ⟨_, h, hf⟩ => by cases h; exact hf⟩

@[simp] theorem pure_eq_ok {b : α} : (pure a : Except ε α) = .ok b ↔ a = b :=
  ⟨fun h => Except.ok.inj h, fun h => h ▸ rfl⟩

@[simp] theorem refuse_eq_ok {p : Prop} [Decidable p] {e : ε} {x : Except ε α} :
    (if p then .error e else x) = .ok a ↔ ¬ p ∧ x = .ok a := by
  by_cases h : p <;> simp [h]

theorem mapM_eq_ok : xs.mapM f = .ok ys ↔ List.Forall₂ (fun x y => f x = .ok y) xs ys := by
  induction xs generalizing ys with
  | nil =>
    rw [mapM_nil, pure_eq_ok, forall₂_nil_left_iff]
    exact eq_comm
  | cons x xs ih =>
    rw [mapM_cons]
    simp only [bind_eq_ok, pure_eq_ok, ih]
    constructor
    · rintro ⟨y, hy, zs, hzs, rfl⟩
      exact .cons hy hzs
    · intro h
      cases h with
      | @cons _ y _ zs hy hzs => exact ⟨y, hy, zs, hzs, rfl⟩

theorem mapM_ok_of_forall (h : ∀ x ∈ xs, f x = .ok (g x)) : xs.mapM f = .ok (xs.map g) := by
  rw [mapM_eq_ok, forall₂_map_right_iff]
  exact forall₂_same.mpr h

theorem mapM_congr {g : α → Except ε β} (h : ∀ x ∈ xs, f x = g x) : xs.mapM f = xs.mapM g := by
  induction xs with
  | nil => rfl
  | cons x xs ih => rw [mapM_cons, mapM_cons, h x mem_cons_self, ih fun y hy => h y (mem_cons_of_mem _ hy)]

theorem exists_mapM_ok {P : α → β → Prop} (h : ∀ x ∈ xs, ∃ y, f x = .ok y ∧ P x y) :
    ∃ ys, xs.mapM f = .ok ys ∧ List.Forall₂ P xs ys := by
  induction xs with
  | nil => exact ⟨[], rfl, .nil⟩
  | cons x xs ih =>
    obtain ⟨y, hy, hP⟩ := h x mem_cons_self
    obtain ⟨ys, hys, hall⟩ := ih fun x' hx' => h x' (mem_cons_of_mem _ hx')
    refine ⟨y :: ys, ?_, .cons hP hall⟩
    rw [mapM_cons, hy, hys]
    rfl

theorem mapM_ok_eq_map (h : ∀ x ∈ xs, ∀ y, f x = .ok y → y = g x) (hm : xs.mapM f = .ok ys) : ys = xs.map g := by
  rw [mapM_eq_ok] at hm
  induction hm with
  | nil => rfl
  | @cons x y xs ys hy _ ih => rw [map_cons, h x (by simp) y hy, ih fun x' hx' => h x' (by simp [hx'])]

theorem eq_map_of_mapM_ok {g : β → α} (h : ∀ x ∈ xs, ∀ y, f x = .ok y → x = g y) (hm : xs.mapM f = .ok ys) :
    xs = ys.map g := by
  rw [mapM_eq_ok] at hm
  induction hm with
  | nil => rfl
  | @cons x y xs ys hy _ ih => rw [map_cons, ← h x (by simp) y hy, ← ih fun x' hx' => h x' (by simp [hx'])]

theorem exists_of_mem_mapM (h : xs.mapM f = .ok ys) {x : α} (hx : x ∈ xs) : ∃ y ∈ ys, f x = .ok y := by
  rw [mapM_eq_ok] at h
  induction h with
  | nil => simp at hx
  | @cons x' y xs ys hy _ ih =>
    rcases mem_cons.mp hx with rfl | hx
    · exact ⟨y, by simp, hy⟩
    · obtain ⟨z, hz, hfz⟩ := ih hx
      exact ⟨z, by simp [hz], hfz⟩

theorem exists_of_mem_mapM_right (h : xs.mapM f = .ok ys) {y : β} (hy : y ∈ ys) : ∃ x ∈ xs, f x = .ok y := by
  rw [mapM_eq_ok] at h
  induction h with
  | nil => simp at hy
  | @cons x y' xs ys hx _ ih =>
    rcases mem_cons.mp hy with rfl | hy
    · exact ⟨x, by simp, hx⟩
    · obtain ⟨z, hz, hfz⟩ := ih hy
      exact ⟨z, by simp [hz], hfz⟩

theorem mem_filterMapM {f : α → Except ε (Option β)} (h : xs.filterMapM f = .ok ys) {x : α} (hx : x ∈ xs) :
    ∃ o, f x = .ok o ∧ ∀ y, o = some y → y ∈ ys := by
  induction xs generalizing ys with
  | nil => cases hx
  | cons a xs ih =>
    rw [filterMapM_cons, bind_eq_ok] at h
    obtain ⟨o, ho, h⟩ := h
    cases o with
    | none =>
      rcases mem_cons.mp hx with rfl | hx
      · exact ⟨none, ho, fun y hy => by cases hy⟩
      · exact ih h hx
    | some b =>
      simp only [bind_eq_ok, pure_eq_ok] at h
      obtain ⟨zs, hzs, rfl⟩ := h
      rcases mem_cons.mp hx with rfl | hx
      · refine ⟨some b, ho, ?_⟩
        intro y hy
        cases hy
        exact mem_cons_self ..
      · obtain ⟨o', ho', hy⟩ := ih hzs hx
        exact ⟨o', ho', fun y he => mem_cons_of_mem _ (hy y he)⟩

theorem optionMapM_ok {P : α → Prop} {o : Option α} {r : Option β} (h : o.mapM f = .ok r)
    (hf : ∀ a b, f a = .ok b → b = g a ∧ P a) : r = o.map g ∧ ∀ a ∈ o, P a := by
  cases o with
  | none =>
    cases h
    exact ⟨rfl, by simp⟩
  | some a =>
    cases hfa : f a with
    | error e => simp [Option.mapM_some, hfa] at h
    | ok b =>
      obtain ⟨hb, hP⟩ := hf a b hfa
      have hr : r = some b := by simpa [Option.mapM_some, hfa, eq_comm] using h
      refine ⟨by rw [hr, hb, Option.map_some], ?_⟩
      intro a' ha'
      cases ha'
      exact hP

theorem foldlM_invariant {σ : Type} {f : σ → α → Except ε σ} {P : σ → Prop}
    (hstep : ∀ s x t, x ∈ xs → P s → f s x = .ok t → P t) {s t : σ} (hs : P s) (h : xs.foldlM f s = .ok t) :
    P t := by
  induction xs generalizing s with
  | nil =>
    simp only [foldlM_nil, pure_eq_ok] at h
    exact h ▸ hs
  | cons x xs ih =>
    simp only [foldlM_cons, bind_eq_ok] at h
    obtain ⟨u, hu, h⟩ := h
    exact ih (fun s y t hy => hstep s y t (by simp [hy])) (hstep s x u (by simp) hs hu) h

theorem filterMapM_sublist {γ : Type} {f : α → Except ε (Option β)} (key : α → γ) (name : β → γ)
    (hf : ∀ a b, f a = .ok (some b) → name b = key a) (h : xs.filterMapM f = .ok ys) :
    (ys.map name).Sublist (xs.map key) ∧ ∀ y ∈ ys, ∃ x ∈ xs, f x = .ok (some y) := by
  induction xs generalizing ys with
  | nil =>
    rw [filterMapM_nil, pure_eq_ok] at h
    rw [← h]
    exact ⟨List.Sublist.refl _, nofun⟩
  | cons a xs ih =>
    rw [filterMapM_cons, bind_eq_ok] at h
    obtain ⟨o, ho, h⟩ := h
    cases o with
    | none =>
      obtain ⟨hsub, hmem⟩ := ih h
      refine ⟨hsub.cons _, ?_⟩
      intro y hy
      obtain ⟨x, hx, hfx⟩ := hmem y hy
      exact ⟨x, mem_cons_of_mem _ hx, hfx⟩
    | some b =>
      simp only [bind_eq_ok, pure_eq_ok] at h
      obtain ⟨zs, hzs, rfl⟩ := h
      obtain ⟨hsub, hmem⟩ := ih hzs
      refine ⟨?_, ?_⟩
      · rw [map_cons, map_cons, hf a b ho]
        exact hsub.cons_cons _
      · intro y hy
        rcases mem_cons.mp hy with rfl | hy
        · exact ⟨a, mem_cons_self .., ho⟩
        · obtain ⟨x, hx, hfx⟩ := hmem y hy
          exact ⟨x, mem_cons_of_mem _ hx, hfx⟩

theorem mapM_eq_filterMap (h : ∀ x ∈ xs, ∃ y, f x = .ok y) :
    xs.mapM f = .ok (xs.filterMap fun x => (f x).toOption) := by
  rw [mapM_eq_ok]
  induction xs with
  | nil => exact .nil
  | cons x xs ih =>
    obtain ⟨y, hy⟩ := h x mem_cons_self
    rw [filterMap_cons_some (by rw [hy]; rfl)]
    exact .cons hy (ih fun z hz => h z (mem_cons_of_mem _ hz))

theorem mem_toOption {r : Except ε α} : a ∈ r.toOption ↔ r = .ok a := by
  cases r with
  | error e => simp [Except.toOption]
  | ok b => simp [Except.toOption]

end Exceptional
