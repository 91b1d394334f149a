import Mathlib.Data.Finset.Card

namespace TopVersions

variable {V : Type} (newer : V → V → Prop) [DecidableRel newer] {D : Finset V}

def Covered (X : Nat) (S : Finset V) (v : V) : Prop := X ≤ (S.filter (newer v)).card

instance [DecidableEq V] (X : Nat) (S : Finset V) (v : V) : Decidable (Covered newer X S v) :=
  inferInstanceAs (Decidable (_ ≤ _))

def Retained (X : Nat) (S : Finset V) (v : V) : Prop := v ∈ S ∨ Covered newer X S v

def top (X : Nat) (S : Finset V) : Finset V := S.filter fun v => (S.filter (newer v)).card < X

variable {newer} {X : Nat} {S T H : Finset V} {v : V}

theorem Covered.mono (h : Covered newer X S v) (hST : S ⊆ T) : Covered newer X T v :=
  h.trans (Finset.card_le_card (Finset.filter_subset_filter _ hST))

theorem Retained.mono (h : Retained newer X S v) (hST : S ⊆ T) : Retained newer X T v :=
  h.imp (fun hv => hST hv) (fun hc => hc.mono hST)

theorem Covered.of_newer (htrans : ∀ a b c, newer a b → newer b c → newer a c) {w : V}
    (hw : Covered newer X S w) (hv : newer v w) : Covered newer X S v := by
  refine hw.trans (Finset.card_le_card ?_)
  intro s hs
  obtain ⟨hmem, hn⟩ := Finset.mem_filter.mp hs
  exact Finset.mem_filter.mpr ⟨hmem, htrans v w s hv hn⟩

theorem Retained.sdiff [DecidableEq V] (htrans : ∀ a b c, newer a b → newer b c → newer a c)
    (h : Retained newer X S v) (hD : ∀ d ∈ D, Covered newer X (S \ D) d) : Retained newer X (S \ D) v := by
  rcases h with hv | hc
  · by_cases hd : v ∈ D
    · exact .inr (hD v hd)
    · exact .inl (Finset.mem_sdiff.mpr ⟨hv, hd⟩)
  · right
    by_cases hex : ∃ d ∈ D, newer v d
    · obtain ⟨d, hd, hn⟩ := hex
      exact (hD d hd).of_newer htrans hn
    · refine hc.trans (Finset.card_le_card ?_)
      intro s hs
      obtain ⟨hmem, hn⟩ := Finset.mem_filter.mp hs
      refine Finset.mem_filter.mpr ⟨Finset.mem_sdiff.mpr ⟨hmem, ?_⟩, hn⟩
      exact fun hd => hex ⟨s, hd, hn⟩

theorem Covered.top (htrans : ∀ a b c, newer a b → newer b c → newer a c)
    (hirrefl : ∀ a, ¬ newer a a) (h : Covered newer X S v) : Covered newer X (top newer X S) v := by
  induction hn : (S.filter (newer v)).card using Nat.strong_induction_on generalizing v with
  | _ n ih =>
    by_cases hall : S.filter (newer v) ⊆ TopVersions.top newer X S
    · refine h.trans (Finset.card_le_card ?_)
      intro s hs
      exact Finset.mem_filter.mpr ⟨hall hs, (Finset.mem_filter.mp hs).2⟩
    · obtain ⟨u, hu, hnot⟩ := Finset.not_subset.mp hall
      obtain ⟨hmem, hvu⟩ := Finset.mem_filter.mp hu
      have hcov : Covered newer X S u := by
        by_contra hlt
        exact hnot (Finset.mem_filter.mpr ⟨hmem, not_le.mp hlt⟩)
      have hless : (S.filter (newer u)).card < n := by
        rw [← hn]
        refine Finset.card_lt_card (Finset.ssubset_iff_subset_ne.mpr ⟨?_, ?_⟩)
        · intro s hs
          obtain ⟨hs, hus⟩ := Finset.mem_filter.mp hs
          exact Finset.mem_filter.mpr ⟨hs, htrans v u s hvu hus⟩
        · intro heq
          rw [← heq] at hu
          exact hirrefl u (Finset.mem_filter.mp hu).2
      exact (ih _ hless hcov rfl).of_newer htrans hvu

theorem Covered.sdiff [DecidableEq V] (htrans : ∀ a b c, newer a b → newer b c → newer a c)
    (hirrefl : ∀ a, ¬ newer a a) (hD : ∀ d ∈ D, Covered newer X S d) (h : Covered newer X S v) :
    Covered newer X (S \ D) v := by
  refine (h.top htrans hirrefl).mono ?_
  intro s hs
  obtain ⟨hmem, hlt⟩ := Finset.mem_filter.mp hs
  exact Finset.mem_sdiff.mpr ⟨hmem, fun hd => absurd (hD s hd) (not_le.mpr hlt)⟩

theorem covered_sdiff_of_pages [DecidableEq V] (hirrefl : ∀ a, ¬ newer a a) {page : V → Finset V}
    (hsub : ∀ d ∈ D, page d ⊆ S) (hcard : ∀ d ∈ D, (page d).card ≤ X)
    (hsame : ∀ d ∈ D, ∀ p ∈ page d, page p = page d) (hout : ∀ d ∈ D, Covered newer X (page d) d) :
    ∀ d ∈ D, Covered newer X (S \ D) d := by
  intro d hd
  refine (hout d hd).mono ?_
  intro p hp
  refine Finset.mem_sdiff.mpr ⟨hsub d hd hp, ?_⟩
  intro hpD
  have hcov := hout p hpD
  rw [hsame d hd p hp] at hcov
  have hlt : ((page d).filter (newer p)).card < (page d).card := by
    refine Finset.card_lt_card (Finset.filter_ssubset.mpr ⟨p, hp, hirrefl p⟩)
  exact absurd (hcov.trans_lt hlt) (not_lt.mpr (hcard d hd))

theorem top_subset (hret : ∀ v ∈ H, Retained newer X S v) (hSH : S ⊆ H) : top newer X H ⊆ S := by
  intro v hv
  obtain ⟨hmem, hlt⟩ := Finset.mem_filter.mp hv
  rcases hret v hmem with hS | hc
  · exact hS
  · exact absurd (hc.mono hSH) (not_le.mpr hlt)

theorem top_eq (htrans : ∀ a b c, newer a b → newer b c → newer a c)
    (hret : ∀ v ∈ H, Retained newer X S v) (hSH : S ⊆ H) : top newer X S = top newer X H := by
  refine Finset.Subset.antisymm ?_ ?_
  · intro v hv
    obtain ⟨hmem, hlt⟩ := Finset.mem_filter.mp hv
    refine Finset.mem_filter.mpr ⟨hSH hmem, ?_⟩
    by_contra hge
    refine absurd hlt (not_lt.mpr ?_)
    by_cases hall : H.filter (newer v) ⊆ S
    · refine (not_lt.mp hge).trans (Finset.card_le_card ?_)
      intro s hs
      exact Finset.mem_filter.mpr ⟨hall hs, (Finset.mem_filter.mp hs).2⟩
    · obtain ⟨s, hs, hnot⟩ := Finset.not_subset.mp hall
      obtain ⟨hsH, hns⟩ := Finset.mem_filter.mp hs
      rcases hret s hsH with hS | hc
      · exact absurd hS hnot
      · exact hc.of_newer htrans hns
  · intro v hv
    have hmem := top_subset hret hSH hv
    refine Finset.mem_filter.mpr ⟨hmem, ?_⟩
    exact (Finset.card_le_card (Finset.filter_subset_filter _ hSH)).trans_lt
      (Finset.mem_filter.mp hv).2

end TopVersions
