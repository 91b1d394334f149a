import Mathlib.Algebra.GroupWithZero.Nat
import Mathlib.Data.List.Dedup
import Mathlib.Data.List.TakeWhile

namespace Sequence

open List

variable {α : Type} {l : List α} {κ β ν : Type} {n : Nat} {k : κ} {a : α}

theorem nodup_eraseDups [BEq α] [LawfulBEq α] (l : List α) : l.eraseDups.Nodup := by
  induction h : l.length using Nat.strong_induction_on generalizing l with
  | _ n ih =>
    cases l with
    | nil => simp
    | cons a l =>
      rw [eraseDups_cons, nodup_cons]
      refine ⟨by simp, ih _ ?_ _ rfl⟩
      have hl := length_filter_le (fun b => !b == a) l
      simp only [length_cons] at h
      omega

theorem takeWhile_eq_filter {p : α → Bool} (h : l.Pairwise (fun a b => p b → p a)) :
    l.takeWhile p = l.filter p := by
  induction l with
  | nil => rfl
  | cons a l ih =>
    obtain ⟨ha, hl⟩ := pairwise_cons.mp h
    by_cases hp : p a
    · rw [takeWhile_cons_of_pos hp, filter_cons_of_pos hp, ih hl]
    · rw [takeWhile_cons_of_neg hp, filter_cons_of_neg hp]
      exact (filter_eq_nil_iff.mpr fun b hb hpb => hp (ha b hb hpb)).symm

theorem exists_eq_map {f : β → α} {P : β → Prop} (h : ∀ a ∈ l, ∃ b, P b ∧ a = f b) :
    ∃ bs : List β, l = bs.map f ∧ ∀ b ∈ bs, P b := by
  induction l with
  | nil => exact ⟨[], rfl, nofun⟩
  | cons a l ih =>
    obtain ⟨b, hb, rfl⟩ := h a mem_cons_self
    obtain ⟨bs, rfl, hbs⟩ := ih fun a' ha' => h a' (mem_cons_of_mem _ ha')
    exact ⟨b :: bs, rfl, forall_mem_cons.mpr ⟨hb, hbs⟩⟩

theorem split_at_getElem? (h : l[n]? = some a) :
    ∃ before after, l = before ++ a :: after ∧ (∀ b, l.set n b = before ++ b :: after) ∧
      l.eraseIdx n = before ++ after := by
  induction l generalizing n with
  | nil => cases h
  | cons x l ih =>
    cases n with
    | zero =>
      obtain rfl : x = a := Option.some.inj h
      exact ⟨[], l, rfl, fun _ => rfl, rfl⟩
    | succ n =>
      obtain ⟨before, after, rfl, hset, herase⟩ := ih h
      exact ⟨x :: before, after, rfl, fun b => congrArg (x :: ·) (hset b), congrArg (x :: ·) herase⟩

theorem lookup_eq_none_of_forall [DecidableEq κ] {l : List (κ × ν)} (h : ∀ e ∈ l, e.1 ≠ k) : l.lookup k = none := by
  rw [lookup_eq_none_iff]
  intro e he
  simpa using (h e he).symm

theorem mem_of_lookup_eq_some [BEq κ] [LawfulBEq κ] {l : List (κ × ν)} {v : ν} (h : l.lookup k = some v) :
    (k, v) ∈ l := by
  obtain ⟨before, after, rfl, _⟩ := lookup_eq_some_iff.mp h
  simp

theorem lookup_filter_fst [DecidableEq κ] {p : κ → Bool} (hk : p k = true) (l : List (κ × ν)) :
    (l.filter fun e => p e.1).lookup k = l.lookup k := by
  induction l with
  | nil => rfl
  | cons e l ih =>
    obtain ⟨k', v⟩ := e
    by_cases he : k = k'
    · subst he
      rw [filter_cons, if_pos hk, lookup_cons_self, lookup_cons_self]
    · have hb : (k == k') = false := by simpa using he
      rw [lookup_cons, hb, filter_cons]
      split
      · rw [lookup_cons, hb, ih]
      · exact ih

theorem exists_mem_zip {xs : List α} {ys : List β} (h : ys.length = xs.length) :
    (∀ x ∈ xs, ∃ y, (x, y) ∈ xs.zip ys) ∧ ∀ y ∈ ys, ∃ x, (x, y) ∈ xs.zip ys := by
  induction xs generalizing ys with
  | nil =>
    rw [eq_nil_of_length_eq_zero h]
    simp
  | cons a xs ih =>
    cases ys with
    | nil => simp at h
    | cons b ys =>
      obtain ⟨hl, hr⟩ := ih (by simpa using h)
      rw [zip_cons_cons]
      refine ⟨?_, ?_⟩
      · intro x hx
        rcases mem_cons.mp hx with rfl | hx
        · exact ⟨b, by simp⟩
        · obtain ⟨y, hy⟩ := hl x hx
          exact ⟨y, mem_cons_of_mem _ hy⟩
      · intro y hy
        rcases mem_cons.mp hy with rfl | hy
        · exact ⟨a, by simp⟩
        · obtain ⟨x, hx⟩ := hr y hy
          exact ⟨x, mem_cons_of_mem _ hx⟩

theorem zip_map_self (f : α → β) (l : List α) : l.zip (l.map f) = l.map fun a => (a, f a) := by
  induction l with
  | nil => rfl
  | cons a l ih => rw [map_cons, zip_cons_cons, ih, map_cons]

def groupRuns {κ : Type} [DecidableEq κ] (f : α → κ) : List α → List (κ × List α)
  | [] => []
  | a :: l =>
    match groupRuns f l with
    | [] => [(f a, [a])]
    | (k, run) :: rest => if f a = k then (k, a :: run) :: rest else (f a, [a]) :: (k, run) :: rest

theorem groupRuns_flatten [DecidableEq κ] (f : α → κ) (l : List α) : (groupRuns f l).flatMap Prod.snd = l := by
  induction l with
  | nil => rfl
  | cons a l ih =>
    unfold groupRuns
    split
    · rename_i h
      rw [h] at ih
      rw [← ih]
      rfl
    · rename_i k run rest h
      rw [h] at ih
      rw [← ih]
      split <;> rfl

theorem groupRuns_key [DecidableEq κ] (f : α → κ) (l : List α) :
    ∀ run ∈ groupRuns f l, ∀ a ∈ run.2, f a = run.1 := by
  induction l with
  | nil =>
    intro run hr
    cases hr
  | cons a l ih =>
    unfold groupRuns
    split
    · intro run hr b hb
      rw [mem_singleton.mp hr] at hb ⊢
      rw [mem_singleton.mp hb]
    · rename_i k run rest h
      rw [h] at ih
      have hhead := ih (k, run) (by simp)
      split
      · rename_i hk
        intro r hr b hb
        rcases mem_cons.mp hr with rfl | hr
        · rcases mem_cons.mp hb with rfl | hb
          · exact hk
          · exact hhead b hb
        · exact ih r (by simp [hr]) b hb
      · intro r hr b hb
        rcases mem_cons.mp hr with rfl | hr
        · rw [mem_singleton.mp hb]
        · exact ih r hr b hb

theorem groupRuns_ne_nil [DecidableEq κ] (f : α → κ) (l : List α) : ∀ run ∈ groupRuns f l, run.2 ≠ [] := by
  induction l with
  | nil => nofun
  | cons a l ih =>
    unfold groupRuns
    split
    · intro run hr
      rw [mem_singleton.mp hr]
      exact cons_ne_nil _ _
    · rename_i k run rest h
      rw [h] at ih
      split
      · intro r hr
        rcases mem_cons.mp hr with rfl | hr
        · exact cons_ne_nil _ _
        · exact ih r (mem_cons_of_mem _ hr)
      · intro r hr
        rcases mem_cons.mp hr with rfl | hr
        · exact cons_ne_nil _ _
        · exact ih r hr

theorem mem_of_groupRuns [DecidableEq κ] {f : α → κ} {run : κ × List α} (hr : run ∈ groupRuns f l)
    (ha : a ∈ run.2) : a ∈ l ∧ f a = run.1 := by
  refine ⟨?_, groupRuns_key f l run hr a ha⟩
  rw [← groupRuns_flatten f l]
  exact mem_flatMap.mpr ⟨run, hr, ha⟩

def chunksFrom (n : Nat) : Nat → List α → List (List α)
  | 0, _ => []
  | fuel + 1, l => if l.isEmpty then [] else l.take n :: chunksFrom n fuel (l.drop n)

def chunks (n : Nat) (l : List α) : List (List α) := chunksFrom n l.length l

theorem chunks_flatten (hn : 0 < n) (l : List α) : (chunks n l).flatten = l := by
  have hgen : ∀ fuel (l : List α), l.length ≤ fuel → (chunksFrom n fuel l).flatten = l := by
    intro fuel
    induction fuel with
    | zero =>
      intro l hl
      rw [eq_nil_of_length_eq_zero (Nat.le_zero.mp hl)]
      rfl
    | succ fuel ih =>
      intro l hl
      cases l with
      | nil => rfl
      | cons a l =>
        have hdrop : ((a :: l).drop n).length ≤ fuel := by
          rw [length_drop]
          omega
        show ((a :: l).take n :: chunksFrom n fuel ((a :: l).drop n)).flatten = a :: l
        rw [flatten_cons, ih _ hdrop, take_append_drop]
  exact hgen l.length l (le_refl _)

theorem chunks_ne_nil (hn : 0 < n) (l : List α) : ∀ chunk ∈ chunks n l, chunk ≠ [] := by
  have hgen : ∀ fuel (l : List α), ∀ chunk ∈ chunksFrom n fuel l, chunk ≠ [] := by
    intro fuel
    induction fuel with
    | zero =>
      intro l chunk hc
      cases hc
    | succ fuel ih =>
      intro l chunk hc
      cases l with
      | nil => cases hc
      | cons a l =>
        rcases mem_cons.mp hc with rfl | hc
        · intro hnil
          have hlen := congrArg length hnil
          simp only [length_take, length_cons, length_nil] at hlen
          omega
        · exact ih _ chunk hc
  exact hgen l.length l

theorem length_of_mem_chunks (l : List α) : ∀ chunk ∈ chunks n l, chunk.length ≤ n := by
  have hgen : ∀ fuel (l : List α), ∀ chunk ∈ chunksFrom n fuel l, chunk.length ≤ n := by
    intro fuel
    induction fuel with
    | zero =>
      intro l chunk hc
      cases hc
    | succ fuel ih =>
      intro l chunk hc
      unfold chunksFrom at hc
      split at hc
      · cases hc
      · rcases mem_cons.mp hc with rfl | hc
        · exact length_take_le n l
        · exact ih _ chunk hc
  exact hgen l.length l

section Gather

variable {κ ν : Type} [DecidableEq κ] {l : List (κ × ν)} {v : ν} {k k' : κ} {acc : List (κ × List ν)}

def appendAt (k : κ) (v : ν) : List (κ × List ν) → List (κ × List ν)
  | [] => [(k, [v])]
  | (k', vs) :: rest => if k = k' then (k', vs ++ [v]) :: rest else (k', vs) :: appendAt k v rest

def gather (l : List (κ × ν)) : List (κ × List ν) := l.foldl (fun acc e => appendAt e.1 e.2 acc) []

theorem mem_keys_appendAt : k' ∈ (appendAt k v acc).map Prod.fst ↔ k' = k ∨ k' ∈ acc.map Prod.fst := by
  induction acc with
  | nil => simp [appendAt]
  | cons e acc ih =>
    obtain ⟨k₁, vs⟩ := e
    unfold appendAt
    split
    · rename_i heq
      subst heq
      simp
    · simp only [map_cons, mem_cons, ih]
      tauto

theorem nodup_appendAt (h : (acc.map Prod.fst).Nodup) : ((appendAt k v acc).map Prod.fst).Nodup := by
  induction acc with
  | nil => simp [appendAt]
  | cons e acc ih =>
    obtain ⟨k₁, vs⟩ := e
    obtain ⟨hn, hacc⟩ := nodup_cons.mp h
    unfold appendAt
    split
    · exact nodup_cons.mpr ⟨hn, hacc⟩
    · rename_i hne
      refine nodup_cons.mpr ⟨?_, ih hacc⟩
      rw [mem_keys_appendAt, not_or]
      exact ⟨fun heq => hne heq.symm, hn⟩

theorem lookup_cons_if : ((k', v) :: l).lookup k = if k = k' then some v else l.lookup k := by
  by_cases h : k = k'
  · subst h
    rw [lookup_cons_self, if_pos rfl]
  · have hb : (k == k') = false := by simpa using h
    rw [lookup_cons, hb, if_neg h]

theorem lookup_appendAt (acc : List (κ × List ν)) : (appendAt k v acc).lookup k' =
      if k' = k then some ((acc.lookup k).getD [] ++ [v]) else acc.lookup k' := by
  induction acc with
  | nil => simp [appendAt, lookup_cons_if]
  | cons e acc ih =>
    obtain ⟨k₁, vs⟩ := e
    unfold appendAt
    split
    · rename_i heq
      subst heq
      simp only [lookup_cons_if, if_true]
      split <;> rfl
    · rename_i hne
      rw [lookup_cons_if, lookup_cons_if, lookup_cons_if, ih, if_neg hne]
      split
      · rename_i heq
        subst heq
        rw [if_neg fun h => hne h.symm]
      · rfl

theorem nodup_gather (l : List (κ × ν)) : ((gather l).map Prod.fst).Nodup := by
  have hgen : ∀ acc : List (κ × List ν), (acc.map Prod.fst).Nodup →
      ((l.foldl (fun acc e => appendAt e.1 e.2 acc) acc).map Prod.fst).Nodup := by
    induction l with
    | nil => exact fun acc h => h
    | cons e l ih => exact fun acc h => ih _ (nodup_appendAt h)
  exact hgen [] nodup_nil

theorem of_mem_keys_gather (h : k ∈ (gather l).map Prod.fst) : k ∈ l.map Prod.fst := by
  have hgen : ∀ acc : List (κ × List ν),
      k ∈ (l.foldl (fun acc e => appendAt e.1 e.2 acc) acc).map Prod.fst →
        k ∈ l.map Prod.fst ∨ k ∈ acc.map Prod.fst := by
    clear h
    induction l with
    | nil => exact fun acc h => .inr h
    | cons e l ih =>
      intro acc h
      rw [map_cons, mem_cons]
      rcases ih _ h with hl | hacc
      · exact .inl (.inr hl)
      · rcases mem_keys_appendAt.mp hacc with heq | hold
        · exact .inl (.inl heq)
        · exact .inr hold
  exact (hgen [] h).resolve_right not_mem_nil

theorem lookup_gather (l : List (κ × ν)) (k : κ) :
    ((gather l).lookup k).getD [] = (l.filter fun e => e.1 = k).map Prod.snd := by
  have hgen : ∀ acc : List (κ × List ν),
      ((l.foldl (fun acc e => appendAt e.1 e.2 acc) acc).lookup k).getD [] =
        (acc.lookup k).getD [] ++ (l.filter fun e => e.1 = k).map Prod.snd := by
    induction l with
    | nil => simp
    | cons e l ih =>
      intro acc
      rw [foldl_cons, ih, lookup_appendAt, filter_cons]
      by_cases h : k = e.1
      · subst h
        simp
      · have hne : ¬ e.1 = k := fun heq => h heq.symm
        simp [h, hne]
  have hl := hgen []
  rw [lookup_nil, Option.getD_none, nil_append] at hl
  exact hl

theorem lookup_of_mem (h : (l.map Prod.fst).Nodup) (hm : (k, v) ∈ l) : l.lookup k = some v := by
  induction l with
  | nil => cases hm
  | cons e l ih =>
    obtain ⟨hn, hl⟩ := nodup_cons.mp h
    rcases mem_cons.mp hm with rfl | hm
    · rw [lookup_cons_self]
    · have hne : (k == e.1) = false := by
        rw [beq_eq_false_iff_ne]
        rintro rfl
        exact hn (mem_map.mpr ⟨_, hm, rfl⟩)
      rw [lookup_cons, hne]
      exact ih hl hm

theorem lookup_perm {l' : List (κ × ν)} (h : l.Perm l') (hn : (l.map Prod.fst).Nodup) (k : κ) :
    l.lookup k = l'.lookup k := by
  have hn' : (l'.map Prod.fst).Nodup := (h.map Prod.fst).nodup_iff.mp hn
  cases hl : l.lookup k with
  | some v => exact (lookup_of_mem hn' (h.mem_iff.mp (mem_of_lookup_eq_some hl))).symm
  | none =>
    cases hl' : l'.lookup k with
    | none => rfl
    | some v =>
      rw [lookup_of_mem hn (h.mem_iff.mpr (mem_of_lookup_eq_some hl'))] at hl
      cases hl

theorem flatMap_at_key {β : Type} (h : (l.map Prod.fst).Nodup) (k : κ) (f : ν → List β) :
    (l.flatMap fun e => if e.1 = k then f e.2 else []) = ((l.lookup k).map f).getD [] := by
  induction l with
  | nil => rfl
  | cons e l ih =>
    obtain ⟨hfresh, hrest⟩ := nodup_cons.mp h
    rw [flatMap_cons, ih hrest]
    by_cases he : e.1 = k
    · have hnone : l.lookup k = none := by
        apply lookup_eq_none_of_forall
        intro d hd heq
        exact hfresh (mem_map.mpr ⟨d, hd, heq.trans he.symm⟩)
      rw [if_pos he, hnone, ← he, lookup_cons_self]
      simp
    · rw [if_neg he, nil_append, lookup_cons_if, if_neg fun heq => he heq.symm]

theorem gather_values {vs : List ν} (h : (k, vs) ∈ gather l) : vs = (l.filter fun e => e.1 = k).map Prod.snd := by
  rw [← lookup_gather, lookup_of_mem (nodup_gather l) h, Option.getD_some]

theorem exists_mem_gather (h : (k, v) ∈ l) : ∃ vs, (k, vs) ∈ gather l ∧ v ∈ vs := by
  have hv : v ∈ ((gather l).lookup k).getD [] := by
    rw [lookup_gather]
    exact mem_map.mpr ⟨(k, v), mem_filter.mpr ⟨h, by simp⟩, rfl⟩
  cases hl : (gather l).lookup k with
  | none =>
    rw [hl] at hv
    cases hv
  | some vs =>
    rw [hl] at hv
    exact ⟨vs, mem_of_lookup_eq_some hl, hv⟩

theorem perm_gather (l : List (κ × ν)) : ((gather l).flatMap Prod.snd).Perm (l.map Prod.snd) := by
  have happend (acc : List (κ × List ν)) (k : κ) (v : ν) :
      ((appendAt k v acc).flatMap Prod.snd).Perm (acc.flatMap Prod.snd ++ [v]) := by
    induction acc with
    | nil => exact List.Perm.refl _
    | cons e acc ih =>
      unfold appendAt
      split
      · rw [flatMap_cons, flatMap_cons, append_assoc, append_assoc]
        exact (perm_append_comm).append_left e.2
      · rw [flatMap_cons, flatMap_cons, append_assoc]
        exact ih.append_left e.2
  have hgen (acc : List (κ × List ν)) :
      ((l.foldl (fun acc e => appendAt e.1 e.2 acc) acc).flatMap Prod.snd).Perm
        (acc.flatMap Prod.snd ++ l.map Prod.snd) := by
    induction l generalizing acc with
    | nil => rw [map_nil, append_nil, foldl_nil]
    | cons e l ih =>
      rw [foldl_cons, map_cons, ← singleton_append, ← append_assoc]
      exact (ih _).trans ((happend acc e.1 e.2).append_right _)
  exact hgen []

theorem gather_ne_nil {e : κ × List ν} (h : e ∈ gather l) : e.2 ≠ [] := by
  obtain ⟨k, vs⟩ := e
  obtain ⟨e, he, rfl⟩ := mem_map.mp (of_mem_keys_gather (mem_map.mpr ⟨_, h, rfl⟩))
  rw [gather_values h]
  exact ne_nil_of_mem (mem_map.mpr ⟨e, mem_filter.mpr ⟨he, by simp⟩, rfl⟩)

end Gather

section Counting

variable {keys : List α}

theorem countP_lt_countP {p q : α → Bool} (h : ∀ a ∈ l, p a → q a) {a : α} (ha : a ∈ l) (hq : q a = true)
    (hp : p a = false) : l.countP p < l.countP q := by
  induction l with
  | nil => cases ha
  | cons b l ih =>
    have hle : l.countP p ≤ l.countP q := countP_mono_left fun x hx hpx => h x (mem_cons_of_mem b hx) hpx
    rw [countP_cons, countP_cons]
    rcases mem_cons.mp ha with rfl | hmem
    · simp only [hp, hq, if_true]
      simp only [Bool.false_eq_true, if_false]
      omega
    · have hlt := ih (fun x hx => h x (mem_cons_of_mem b hx)) hmem
      have hb := h b mem_cons_self
      split
      · rename_i hpb
        rw [if_pos (hb hpb)]
        omega
      · split <;> omega

theorem countP_mem_cons [DecidableEq α] {k : α} (hk : k ∉ keys) (l : List α) :
    l.countP (fun a => a ∈ k :: keys) = l.count k + l.countP fun a => a ∈ keys := by
  induction l with
  | nil => rfl
  | cons a l ih =>
    rw [countP_cons, countP_cons, count_cons, ih]
    by_cases hak : a = k
    · subst hak
      simp only [mem_cons, true_or, decide_true, if_true, beq_self_eq_true, hk, decide_false,
        Bool.false_eq_true, if_false]
      omega
    · have hb : (a == k) = false := by simpa using hak
      simp only [mem_cons, hak, false_or, hb, Bool.false_eq_true, if_false]
      omega

theorem sum_count_eq_countP [DecidableEq α] (hn : keys.Nodup) (l : List α) :
    (keys.map fun k => l.count k).sum = l.countP fun a => a ∈ keys := by
  induction keys with
  | nil => simp
  | cons k keys ih =>
    obtain ⟨hk, hkeys⟩ := nodup_cons.mp hn
    rw [map_cons, sum_cons, ih hkeys, countP_mem_cons hk]

theorem count_tagged {β : Type} [DecidableEq α] [DecidableEq β] (l : List α) (a : α) (b b' : β) :
    (((l.map fun x => (x, b)).filter fun e => e.1 = a).map Prod.snd).count b' =
      if b = b' then l.count a else 0 := by
  induction l with
  | nil => simp
  | cons x l ih =>
    rw [map_cons, filter_cons, count_cons]
    by_cases hx : x = a
    · subst hx
      simp only [decide_true, if_true, map_cons, count_cons, ih, beq_self_eq_true, beq_iff_eq]
      split <;> omega
    · have hb : (x == a) = false := by simpa using hx
      simp only [hx, decide_false, Bool.false_eq_true, if_false, ih, hb, Nat.add_zero]

end Counting

end Sequence
