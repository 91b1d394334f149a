import Tourillon.Storage.Clean

namespace Tourillon

open Endian List

structure Legible (g : GroupStorage) : Prop where
  keyed : WellKeyed g.tags
  readable : ∀ e ∈ g.tags.entries, ∃ t, Tag.fromBytes e.2 = .ok t

theorem legible_empty : Legible GroupStorage.empty := ⟨nofun, nofun⟩

theorem legible_invariant : VersionInvariant (fun r => r.tag.Readable) Legible where
  congr _ ht h := ⟨ht ▸ h.keyed, ht ▸ h.readable⟩
  add hr hkey h := by
    refine ⟨wellKeyed_addVersion h.keyed hkey, ?_⟩
    intro e he
    rcases mem_insertNew he with rfl | hold
    · exact ⟨_, Tag.fromBytes_toBytes hr⟩
    · exact h.readable e hold
  drop _ h := ⟨wellKeyed_erase h.keyed _, fun e he => h.readable e (mem_of_mem_filter he)⟩

theorem Legible.ownedVersions_eq {g : GroupStorage} (h : Legible g) :
    g.ownedVersions = g.tags.entries.filterMap ownedKey := by
  refine filterMap_congr ?_
  intro e he
  obtain ⟨t, ht⟩ := h.readable e he
  rw [ownedKey, ht, ownedTagValue_of_fromBytes ht]

namespace GroupStorage

variable {g : GroupStorage} {start stop : Bytes} {e : Bytes × Bytes}

def between (g : GroupStorage) (start stop : Bytes) : List (Bytes × Bytes) :=
  g.tags.entries.filter fun e => start < e.1 ∧ e.1 < stop

def exactly (g : GroupStorage) (bound : Bytes) : List (Bytes × Bytes) :=
  g.tags.entries.filter fun e => e.1 = bound

theorem mem_between : e ∈ g.between start stop ↔ e ∈ g.tags.entries ∧ start < e.1 ∧ e.1 < stop := by
  rw [between, mem_filter, decide_eq_true_iff]

theorem mem_exactly {bound : Bytes} : e ∈ g.exactly bound ↔ e ∈ g.tags.entries ∧ e.1 = bound := by
  rw [exactly, mem_filter, decide_eq_true_iff]

theorem between_split (g : GroupStorage) {mid : Bytes} (hlow : start < mid) (hhigh : mid < stop) :
    g.between start stop = g.between start mid ++ (g.exactly mid ++ g.between mid stop) := by
  refine (OrderedMap.eq_filter_of_mem ?_ ?_).symm
  · refine pairwise_append.mpr ⟨g.tags.sorted.filter _, pairwise_append.mpr
      ⟨g.tags.sorted.filter _, g.tags.sorted.filter _, ?_⟩, ?_⟩
    · intro a ha b hb
      rw [(mem_exactly.mp ha).2]
      exact (mem_between.mp hb).2.1
    · intro a ha b hb
      have hbelow : a.1 < mid := (mem_between.mp ha).2.2
      rcases mem_append.mp hb with hat | habove
      · rw [(mem_exactly.mp hat).2]
        exact hbelow
      · exact hbelow.trans (mem_between.mp habove).2.1
  · intro e
    rw [mem_append, mem_append, mem_between, mem_exactly, mem_between, decide_eq_true_iff]
    constructor
    · rintro (⟨he, hs, hm⟩ | ⟨he, rfl⟩ | ⟨he, hm, hs⟩)
      · exact ⟨he, hs, hm.trans hhigh⟩
      · exact ⟨he, hlow, hhigh⟩
      · exact ⟨he, hlow.trans hm, hs⟩
    · rintro ⟨he, hs, ht⟩
      rcases lt_trichotomy e.1 mid with hlt | heq | hgt
      · exact .inl ⟨he, hs, hlt⟩
      · exact .inr (.inl ⟨he, heq⟩)
      · exact .inr (.inr ⟨he, hgt, ht⟩)

theorem ownedKeys_between (g : GroupStorage) {pre cursor : Bytes} {limit : Nat} (hl : 1 ≤ limit)
    (hpre : cursor.take pidSize = pre) (hstop : pre <+: stop) :
    g.ownedKeys cursor stop limit = .ok ((g.between cursor stop).filterMap ownedKey, none) ∨
      ∃ head b, head ≠ [] ∧ g.between cursor stop = head ++ g.between b stop ∧ pre <+: b ∧ cursor < b ∧
        g.ownedKeys cursor stop limit = .ok (head.filterMap ownedKey, some b) := by
  have hcursor : pre <+: cursor := hpre ▸ take_prefix pidSize cursor
  have hpage := g.list_page .tags hcursor hl
  rw [ownedKeys, if_neg (Nat.not_lt.mpr hl), hpre]
  obtain ⟨page, hp⟩ : ∃ page, page = g.list .tags (some pre) (some cursor) limit := ⟨_, rfl⟩
  obtain ⟨next, hnext⟩ : ∃ next, next = pageCursor page limit := ⟨_, rfl⟩
  rw [← hp, ← hnext] at hpage
  rw [← hp]
  have hkept : page.filter (fun kv => kv.1 < stop) = g.tags.entries.filter fun e =>
      (cursor < e.1 ∧ e.1 < stop) ∧ ∀ b ∈ next, e.1 ≤ b := by
    refine OrderedMap.eq_filter_of_mem (hpage.sorted.filter _) ?_
    intro e
    rw [mem_filter, hpage.mem, decide_eq_true_iff, decide_eq_true_iff]
    constructor
    · rintro ⟨⟨he, hgt, _, hb⟩, hlt⟩
      exact ⟨he, ⟨hgt, hlt⟩, hb⟩
    · rintro ⟨he, ⟨hgt, hlt⟩, hb⟩
      exact ⟨⟨he, hgt, prefix_of_between hcursor hstop hgt.le hlt.le, hb⟩, hlt⟩
  have hwhole (h : ∀ e : Bytes × Bytes, e.1 < stop → ∀ b ∈ next, e.1 ≤ b) :
      page.filter (fun kv => kv.1 < stop) = g.between cursor stop := by
    rw [hkept, between]
    refine filter_congr ?_
    intro e _
    rw [Bool.eq_iff_iff, decide_eq_true_iff, decide_eq_true_iff]
    exact ⟨fun hin => hin.1, fun hin => ⟨hin, h e hin.2⟩⟩
  dsimp only
  rw [hpage.takeWhile_lt stop]
  by_cases hcut : (page.filter (fun kv => kv.1 < stop)).length < page.length
  · rw [if_pos hcut]
    obtain ⟨x, hx, hge⟩ : ∃ x ∈ page, stop ≤ x.1 := by
      by_contra hno
      simp only [not_exists, not_and, not_le] at hno
      rw [filter_eq_self.mpr (fun e he => by simpa using hno e he)] at hcut
      exact lt_irrefl _ hcut
    rw [hwhole fun e he b hb => (he.le.trans hge).trans (((hpage.mem x).mp hx).2.2.2 b hb)]
    exact .inl rfl
  · rw [if_neg hcut]
    have hfull : page.filter (fun kv => kv.1 < stop) = page :=
      filter_sublist.eq_of_length_le (Nat.le_of_not_lt hcut)
    have hcursors : (if page.length = limit then page.getLast?.map Prod.fst else none) = next := hnext.symm
    rw [hcursors]
    cases next with
    | none =>
      rw [hwhole nofun]
      exact .inl rfl
    | some b =>
      obtain ⟨x, hx, rfl⟩ := hpage.last b rfl
      obtain ⟨_, hgt, hprefix, _⟩ := (hpage.mem x).mp hx
      refine .inr ⟨page, x.1, ne_nil_of_mem hx, ?_, hprefix, hgt, by rw [hfull]⟩
      rw [← hfull, hkept, between, g.tags.filter_split _ x.1]
      refine congrArg₂ (· ++ ·) (filter_congr ?_) (filter_congr ?_)
      · intro e _
        simp
      · intro e _
        simp only [decide_eq_true_eq, decide_eq_decide]
        exact ⟨fun h => ⟨h.2, h.1.2⟩, fun h => ⟨⟨hgt.trans h.1, h.2⟩, h.1⟩⟩

end GroupStorage

end Tourillon
