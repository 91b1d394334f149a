import Tourillon.Library.OrderedMap

namespace Paging

open List

section Walk

variable {D κ ι ε : Type} {page : D → Option κ → Except ε (List ι × Option κ)} {d : Nat → D} {n : Nat}
  {c : Option κ}

inductive Walks (page : D → Option κ → Except ε (List ι × Option κ)) (d : Nat → D) :
    Nat → Option κ → Nat → List ι → Prop where
  | last {n : Nat} {c : Option κ} {xs : List ι} (h : page (d n) c = .ok (xs, none)) :
    Walks page d n c n xs
  | more {n m : Nat} {c : Option κ} {b : κ} {xs ys : List ι} (h : page (d n) c = .ok (xs, some b))
    (rest : Walks page d (n + 1) (some b) m ys) : Walks page d n c m (xs ++ ys)

inductive Called (page : D → Option κ → Except ε (List ι × Option κ)) (d : Nat → D) (c₀ : Option κ) :
    Nat → Option κ → Prop where
  | first : Called page d c₀ 0 c₀
  | next {n : Nat} {c : Option κ} {b : κ} {xs : List ι} (h : Called page d c₀ n c)
    (hpage : page (d n) c = .ok (xs, some b)) : Called page d c₀ (n + 1) (some b)

def Discreet (page : D → Option κ → Except ε (List ι × Option κ)) (trim : κ → D → D → Prop)
    (d : Nat → D) (c₀ : Option κ) : Prop :=
  ∀ n c xs b, Called page d c₀ n c → page (d n) c = .ok (xs, some b) → trim b (d n) (d (n + 1))

theorem Walks.le {m : Nat} {xs : List ι} (h : Walks page d n c m xs) : n ≤ m := by
  induction h with
  | last => exact Nat.le_refl _
  | more _ _ ih => exact Nat.le_of_succ_le ih

structure Exact (page : D → Option κ → Except ε (List ι × Option κ)) (trim : κ → D → D → Prop)
    (Good : D → Option κ → Prop) (items : D → Option κ → List ι) (size : D → Option κ → Nat) : Prop where
  turn : ∀ d c, Good d c → page d c = .ok (items d c, none) ∨ ∃ xs b, page d c = .ok (xs, some b) ∧
    Good d (some b) ∧ items d c = xs ++ items d (some b) ∧ size d (some b) < size d c
  trimmed : ∀ b d d', Good d (some b) → trim b d d' → Good d' (some b) ∧
    items d' (some b) = items d (some b) ∧ size d' (some b) ≤ size d (some b)

theorem Exact.walks {trim : κ → D → D → Prop} {Good : D → Option κ → Prop} {items : D → Option κ → List ι}
    {size : D → Option κ → Nat} (h : Exact page trim Good items size) {c₀ : Option κ}
    (hd : Discreet page trim d c₀) (hcalled : Called page d c₀ n c) (hgood : Good (d n) c) :
    ∃ m, m ≤ n + size (d n) c ∧ Walks page d n c m (items (d n) c) := by
  induction hsize : size (d n) c using Nat.strong_induction_on generalizing n c with
  | _ s ih =>
    rcases h.turn (d n) c hgood with hlast | ⟨xs, b, hmore, hnext, hitems, hless⟩
    · exact ⟨n, Nat.le_add_right .., .last hlast⟩
    · obtain ⟨hgood', hkept, hsmall⟩ := h.trimmed b (d n) (d (n + 1)) hnext (hd n c xs b hcalled hmore)
      have hdown : size (d (n + 1)) (some b) < s := hsize ▸ hsmall.trans_lt hless
      obtain ⟨m, hm, hrest⟩ := ih _ hdown (hcalled.next hmore) hgood' rfl
      refine ⟨m, by omega, ?_⟩
      rw [hitems, ← hkept]
      exact .more hmore hrest

end Walk

section Cut

variable {α κ : Type} [LinearOrder κ] (key : α → κ) {es : List α} {c : Option κ} {b : κ}

def after (c : Option κ) (es : List α) : List α := es.filter fun e => ∀ b ∈ c, b < key e

def cut (limit : Nat) (es : List α) : List α × Option κ :=
  (es.take limit, if (es.take limit).length = limit then (es.take limit).getLast?.map key else none)

variable {key}

theorem mem_after {e : α} : e ∈ after key c es ↔ e ∈ es ∧ ∀ b ∈ c, b < key e := by
  rw [after, mem_filter, decide_eq_true_iff]

theorem after_sorted (h : es.Pairwise fun a b => key a < key b) (c : Option κ) :
    (after key c es).Pairwise fun a b => key a < key b := h.filter _

theorem after_none (es : List α) : after key none es = es :=
  filter_eq_self.mpr fun _ _ => decide_eq_true nofun

theorem after_append (c : Option κ) (es fs : List α) :
    after key c (es ++ fs) = after key c es ++ after key c fs := filter_append ..

theorem after_eq_self (h : ∀ e ∈ es, ∀ b ∈ c, b < key e) :
    after key c es = es := filter_eq_self.mpr fun e he => decide_eq_true (h e he)

theorem after_eq_nil (h : ∀ e ∈ es, key e ≤ b) : after key (some b) es = [] := by
  refine filter_eq_nil_iff.mpr ?_
  intro e he
  simpa using h e he

theorem after_after (h : ∀ a ∈ c, a < b) (es : List α) :
    after key (some b) (after key c es) = after key (some b) es := by
  rw [after, after, after, filter_filter]
  refine filter_congr ?_
  intro e _
  have hboth : b < key e → ∀ a ∈ c, a < key e := fun hb a ha => (h a ha).trans hb
  simpa using hboth

theorem filter_lt_and {q : α → Prop} [DecidablePred q] [DecidablePred fun e => b < key e ∧ q e] (es : List α) :
    (es.filter fun e => b < key e ∧ q e) = after key (some b) (es.filter fun e => q e) := by
  rw [after, filter_filter]
  refine filter_congr ?_
  intro e _
  simp

theorem cut_split (hsorted : es.Pairwise fun a b => key a < key b) {limit : Nat} (hl : 1 ≤ limit) :
    (es.length < limit ∧ cut key limit es = (es, none)) ∨
      ∃ e ∈ es, cut key limit es = (es.take limit, some (key e)) ∧ (es.take limit).length = limit ∧
        (es.take limit).getLast? = some e ∧ es = es.take limit ++ after key (some (key e)) es := by
  rcases Nat.lt_or_ge es.length limit with hshort | hlong
  · refine .inl ⟨hshort, ?_⟩
    rw [cut, take_of_length_le hshort.le, if_neg hshort.ne]
  · have hlen : (es.take limit).length = limit := by
      rw [length_take]
      omega
    have hne : es.take limit ≠ [] := ne_nil_of_length_pos (by omega)
    obtain ⟨e, hlast⟩ := Option.isSome_iff_exists.mp (getLast?_isSome.mpr hne)
    obtain ⟨before, hfull⟩ := getLast?_eq_some_iff.mp hlast
    have hmem : e ∈ es := mem_of_mem_take (mem_of_getLast? hlast)
    refine .inr ⟨e, hmem, ?_, hlen, hlast, ?_⟩
    · rw [cut, if_pos hlen, hlast]
      rfl
    · have hsplit := take_append_drop limit es
      rw [← hsplit, hfull, pairwise_append] at hsorted
      obtain ⟨hbefore, _, hcross⟩ := hsorted
      have hdrop : after key (some (key e)) (es.drop limit) = es.drop limit := by
        refine after_eq_self ?_
        intro x hx b hb
        cases hb
        exact hcross e (by simp) x hx
      have htake : after key (some (key e)) (es.take limit) = [] := by
        refine after_eq_nil ?_
        intro x hx
        rw [hfull] at hx
        rcases mem_append.mp hx with hx | hx
        · exact ((pairwise_append.mp hbefore).2.2 x hx e (by simp)).le
        · rw [mem_singleton.mp hx]
      have hafter : after key (some (key e)) es = es.drop limit := by
        conv_lhs => rw [← hsplit]
        rw [after_append, htake, hdrop, nil_append]
      rw [hafter, hsplit]

end Cut

section Catalogue

variable {D κ ι ε α : Type} [LinearOrder κ]

structure Catalogue (key : α → κ) (limit : Nat) (page : D → Option κ → Except ε (List ι × Option κ))
    (trim : κ → D → D → Prop) (Good : D → Prop) (Fits : κ → Prop) (table : D → List α)
    (decode : α → Option ι) : Prop where
  sorted : ∀ d, Good d → (table d).Pairwise fun a b => key a < key b
  fits : ∀ d, Good d → ∀ e ∈ table d, Fits (key e)
  paged : ∀ d c, Good d → (∀ b ∈ c, Fits b) → page d c =
    .ok ((cut key limit (after key c (table d))).1.filterMap decode, (cut key limit (after key c (table d))).2)
  trimmed : ∀ b d d', Good d → Fits b → trim b d d' → Good d' ∧
    after key (some b) (table d') = after key (some b) (table d)

variable {key : α → κ} {limit : Nat} {page : D → Option κ → Except ε (List ι × Option κ)}
  {trim : κ → D → D → Prop} {Good : D → Prop} {Fits : κ → Prop} {table : D → List α} {decode : α → Option ι}
  (h : Catalogue key limit page trim Good Fits table decode) (hl : 1 ≤ limit)

include h hl

theorem Catalogue.exact : Exact page trim (fun d c => Good d ∧ ∀ b ∈ c, Fits b)
      (fun d c => (after key c (table d)).filterMap decode) (fun d c => (after key c (table d)).length) where
  turn := by
    rintro d c ⟨hgood, hfits⟩
    have hsorted := after_sorted (h.sorted d hgood) c
    have hpage := h.paged d c hgood hfits
    rcases cut_split hsorted hl with ⟨_, hcut⟩ | ⟨e, he, hcut, hlen, _, hsplit⟩
    · rw [hcut] at hpage
      exact .inl hpage
    · obtain ⟨hmem, hgt⟩ := mem_after.mp he
      rw [hcut] at hpage
      have hrest : after key c (table d) =
          (after key c (table d)).take limit ++ after key (some (key e)) (table d) := by
        rwa [after_after hgt] at hsplit
      refine .inr ⟨_, _, hpage, ⟨hgood, ?_⟩, ?_, ?_⟩
      · rintro b ⟨⟩
        exact h.fits d hgood e hmem
      · conv_lhs => rw [hrest]
        rw [filterMap_append]
      · have htotal := congrArg length hrest
        rw [length_append, hlen] at htotal
        omega
  trimmed := by
    rintro b d d' ⟨hgood, hfits⟩ htrim
    obtain ⟨hgood', hkept⟩ := h.trimmed b d d' hgood (hfits b rfl) htrim
    exact ⟨⟨hgood', hfits⟩, by rw [hkept], by rw [hkept]⟩

theorem Catalogue.walks {d : Nat → D} {c : Option κ} (hd : Discreet page trim d c) (hgood : Good (d 0))
    (hfits : ∀ b ∈ c, Fits b) : ∃ m, m ≤ (after key c (table (d 0))).length ∧
      Walks page d 0 c m ((after key c (table (d 0))).filterMap decode) := by
  obtain ⟨m, hm, hwalk⟩ := (h.exact hl).walks hd .first ⟨hgood, hfits⟩
  exact ⟨m, by omega, hwalk⟩

end Catalogue

section Trim

variable {κ ν : Type} [LinearOrder κ]

structure Pruned (k : κ) (m m' : OrderedMap κ ν) : Prop where
  deleted : ∀ e ∈ m'.entries, e ∈ m.entries
  kept : ∀ e ∈ m.entries, k < e.1 → e ∈ m'.entries

theorem Pruned.after_eq {k : κ} {m m' : OrderedMap κ ν} (h : Pruned k m m') (q : κ × ν → Bool) :
    after Prod.fst (some k) (m'.entries.filter q) = after Prod.fst (some k) (m.entries.filter q) := by
  rw [after, after, filter_filter, filter_filter]
  refine OrderedMap.eq_filter_of_mem (m'.sorted.filter _) ?_
  intro e
  rw [mem_filter]
  constructor
  · rintro ⟨he, hq⟩
    exact ⟨h.deleted e he, hq⟩
  · rintro ⟨he, hq⟩
    have habove : k < e.1 := of_decide_eq_true (Bool.and_eq_true_iff.mp hq).1 k rfl
    exact ⟨h.kept e he habove, hq⟩

end Trim

end Paging
