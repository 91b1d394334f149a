import Tourillon.Storage.Pages

namespace Tourillon

open Endian TopVersions GroupStorage Key List

variable {g : GroupStorage}

structure Stamped (S : Finset Key) : Prop where
  below : ∀ k ∈ S, k.ts.wallMs < 2 ^ 63
  distinct : ∀ k ∈ S, ∀ k' ∈ S, k.partitionAddress = k'.partitionAddress →
    k.ts.wallMs = k'.ts.wallMs → k.ts.counter = k'.ts.counter → k = k'

theorem Stamped.ordered {S : Finset Key} (h : Stamped S) (hsub : g.held ⊆ S) (addr : PartitionAddress) :
    Ordered g addr where
  aligned k hk k' hk' hwall hcounter := by
    obtain ⟨hheld, haddr⟩ := mem_versionsOf.mp hk
    obtain ⟨hheld', haddr'⟩ := mem_versionsOf.mp hk'
    rw [h.distinct k (hsub hheld) k' (hsub hheld') (haddr.trans haddr'.symm) hwall hcounter]
    exact fun hlt => absurd hlt (lt_irrefl _)
  below k hk := by
    have hlt := h.below k (hsub (mem_versionsOf.mp hk).1)
    omega

theorem LatestPage.listed_iff {X : Nat} {addr : PartitionAddress} {ids : List KeyTag}
    (h : LatestPage g addr X ids) {k : Key} (hk : k ∈ g.versionsOf addr) :
    k ∈ (ids.map fun i => i.key) ↔ ¬ Covered newerThan X g.held k := by
  rw [← h.outside_iff hk]
  constructor
  · intro hin hle
    obtain ⟨i, hi, rfl⟩ := mem_map.mp hin
    have hless : (ids.filter fun j => i.key.ts < j.key.ts).length < ids.length := by
      refine length_filter_lt_length_iff_exists.mpr ⟨i, hi, ?_⟩
      simp
    have hbound := h.length
    omega
  · intro hlt
    by_contra hnot
    have hnewer : ids.filter (fun i => k.ts < i.key.ts) = ids := by
      refine filter_eq_self.mpr fun i hi => decide_eq_true ?_
      exact h.greatest i hi k hk fun j hj heq => hnot (heq ▸ mem_map_of_mem hj)
    rw [hnewer, h.length] at hlt
    have hall : (ids.map fun i => i.key).toFinset = g.versionsOf addr := by
      refine Finset.eq_of_subset_of_card_le ?_ ?_
      · intro q hq
        obtain ⟨i, hi, rfl⟩ := mem_map.mp (mem_toFinset.mp hq)
        exact h.held i hi
      · rw [toFinset_card_of_nodup h.nodup, length_map, h.length]
        omega
    rw [← hall] at hk
    exact hnot (mem_toFinset.mp hk)

section Thinning

variable {p : RetentionPolicy} {g₀ g g' : GroupStorage} {addr : PartitionAddress} {after : Option Bytes}
  {keys ks : List Key} {count limit : Nat} {k : Key}

def Trimmed (p : RetentionPolicy) (g₀ g : GroupStorage) (addr : PartitionAddress) : Prop :=
  ∀ k ∈ g.held, k.partitionAddress = addr → k ∈ top newerThan p.versions g₀.held

theorem Trimmed.mono (h : Trimmed p g₀ g addr) (hsub : g'.held ⊆ g.held) :
    Trimmed p g₀ g' addr := fun k hk => h k (hsub hk)

def TrimmedThrough (p : RetentionPolicy) (g₀ g : GroupStorage) (after : Option Bytes) : Prop :=
  ∀ k ∈ g.held, (∃ b ∈ after, k.encode .tags ≤ b) → k ∈ top newerThan p.versions g₀.held

theorem TrimmedThrough.mono (h : TrimmedThrough p g₀ g after) (hsub : g'.held ⊆ g.held) :
    TrimmedThrough p g₀ g' after := fun k hk => h k (hsub hk)

def TrimmedWhole (p : RetentionPolicy) (g₀ g : GroupStorage) : Prop :=
  ∀ k ∈ g.held, k ∈ top newerThan p.versions g₀.held

theorem TrimmedWhole.mono (h : TrimmedWhole p g₀ g) (hsub : g'.held ⊆ g.held) :
    TrimmedWhole p g₀ g' := fun k hk => h k (hsub hk)

variable [Blake2b]

structure Thinned (p : RetentionPolicy) (g₀ g : GroupStorage) : Prop where
  clean : Clean g
  subset : g.held ⊆ g₀.held
  retained : ∀ k ∈ g₀.held, Retained newerThan p.versions g.held k
  reads : ∀ k ∈ g.held, g.read k = g₀.read k

theorem Thinned.refl (h : Clean g) : Thinned p g g where
  clean := h
  subset := Finset.Subset.refl _
  retained _ hk := .inl hk
  reads _ _ := rfl

theorem Thinned.top_eq (h : Thinned p g₀ g) : top newerThan p.versions g.held = top newerThan p.versions g₀.held :=
  TopVersions.top_eq newerThan_trans h.retained h.subset

theorem Thinned.collected (h : Thinned p g₀ g) (hc : Collected p keys g g' count) :
    Thinned p g₀ g' ∧ g'.held ⊆ g.held := by
  have hsub : g'.held ⊆ g.held := by
    rw [hc.held]
    exact Finset.sdiff_subset
  refine ⟨⟨hc.clean, hsub.trans h.subset, ?_, ?_⟩, hsub⟩
  · intro k hk
    rw [hc.held]
    have hcovered (d : Key) (hd : d ∈ keys.toFinset.filter (Covered newerThan p.versions g.held)) :
        Covered newerThan p.versions g.held d := (Finset.mem_filter.mp hd).2
    refine (h.retained k hk).sdiff newerThan_trans ?_
    intro d hd
    exact (hcovered d hd).sdiff newerThan_trans newerThan_irrefl hcovered
  · intro k hk
    rw [hc.reads k hk, h.reads k (hsub hk)]

theorem Collected.top (h : Collected p keys g g' count) (hk : k ∈ g'.held) (hin : k ∈ keys) :
    k ∈ top newerThan p.versions g.held := by
  rw [h.held] at hk
  obtain ⟨hheld, hnot⟩ := Finset.mem_sdiff.mp hk
  refine Finset.mem_filter.mpr ⟨hheld, ?_⟩
  by_contra hge
  exact hnot (Finset.mem_filter.mpr ⟨mem_toFinset.mpr hin, not_lt.mp hge⟩)

structure KeepsGreatest (X : Nat) (g₀ g : GroupStorage) (addr : PartitionAddress) : Prop where
  subset : g.versionsOf addr ⊆ g₀.versionsOf addr
  count : (g.versionsOf addr).card = min (g₀.versionsOf addr).card X
  greatest : ∀ k ∈ g.versionsOf addr, ∀ k' ∈ g₀.versionsOf addr, k' ∉ g.versionsOf addr → k'.ts < k.ts
  reads : ∀ k ∈ g.versionsOf addr, g.read k = g₀.read k

theorem Thinned.keepsGreatest (h : Thinned p g₀ g) (hclean : Clean g₀) (hs : Stamped g₀.held)
    (htrim : Trimmed p g₀ g addr) : KeepsGreatest p.versions g₀ g addr := by
  have hsub : g.versionsOf addr ⊆ g₀.versionsOf addr := Finset.filter_subset_filter _ h.subset
  have hreads (k : Key) (hk : k ∈ g.versionsOf addr) : g.read k = g₀.read k :=
    h.reads k (mem_versionsOf.mp hk).1
  by_cases hempty : g₀.versionsOf addr = ∅
  · have hnone : g.versionsOf addr = ∅ := Finset.subset_empty.mp (hempty ▸ hsub)
    refine ⟨hsub, ?_, ?_, hreads⟩
    · rw [hnone, hempty]
      simp
    · intro k hk
      rw [hnone] at hk
      cases hk
  · obtain ⟨q, hq⟩ := Finset.nonempty_iff_ne_empty.mpr hempty
    obtain ⟨hqheld, rfl⟩ := mem_versionsOf.mp hq
    have henc := hclean.toSound.encodable_of_held hqheld
    obtain ⟨ids, _, hlatest⟩ := latestIdentities_latest hclean.toSound ⟨henc.1, henc.2.1⟩
      (hs.ordered (Finset.Subset.refl _) q.partitionAddress) p.versions
    have hkept (k : Key) (hk : k ∈ g₀.versionsOf q.partitionAddress) :
        k ∈ g.versionsOf q.partitionAddress ↔ k ∈ (ids.map fun i => i.key) := by
      obtain ⟨hheld, haddr⟩ := mem_versionsOf.mp hk
      rw [hlatest.listed_iff hk, mem_versionsOf]
      constructor
      · rintro ⟨hin, _⟩ hcov
        exact absurd hcov (not_le.mpr (Finset.mem_filter.mp (htrim k hin haddr)).2)
      · intro hcov
        refine ⟨?_, haddr⟩
        rw [Covered, not_le] at hcov
        exact top_subset h.retained h.subset (Finset.mem_filter.mpr ⟨hheld, hcov⟩)
    have hset : g.versionsOf q.partitionAddress = (ids.map fun i => i.key).toFinset := by
      ext k
      rw [mem_toFinset]
      refine ⟨fun hk => (hkept k (hsub hk)).mp hk, fun hk => (hkept k ?_).mpr hk⟩
      obtain ⟨i, hi, rfl⟩ := mem_map.mp hk
      exact hlatest.held i hi
    refine ⟨hsub, ?_, ?_, hreads⟩
    · rw [hset, toFinset_card_of_nodup hlatest.nodup, length_map, hlatest.length, min_comm]
    · intro k hk k' hk' hnot
      rw [hset] at hk
      obtain ⟨i, hi, rfl⟩ := mem_map.mp (mem_toFinset.mp hk)
      refine hlatest.greatest i hi k' hk' ?_
      rintro j hj rfl
      exact hnot ((hkept _ hk').mpr (mem_map_of_mem hj))

theorem Thinned.page (h : Thinned p g₀ g) (hks : TagPage g after ks) (hdone : TrimmedThrough p g₀ g after)
    (hc : Collected p (ks.take limit) g g' count) (hk : k ∈ g'.held) (hin : k ∈ ks → k ∈ ks.take limit) :
    k ∈ top newerThan p.versions g₀.held := by
  have hheld := (h.collected hc).2 hk
  by_cases hlisted : k ∈ ks
  · rw [← h.top_eq]
    exact hc.top hk (hin hlisted)
  · refine hdone k hheld ?_
    by_contra hnone
    refine hlisted ((hks.mem h.clean.toSound k).mpr ⟨hheld, ?_⟩)
    intro b hb
    by_contra hge
    exact hnone ⟨b, hb, not_lt.mp hge⟩

theorem Thinned.oldest (h : Thinned p g₀ g) (hs : Stamped g₀.held) (hks : Logged g addr ks)
    (hc : Collected p (ks.take limit) g g' count) (hfew : count < limit) : Trimmed p g₀ g' addr := by
  intro k hk haddr
  have hheld := (h.collected hc).2 hk
  rw [← h.top_eq]
  have hascending := (hs.ordered h.subset addr).ascending h.clean.toSound hks
  have hlisted : k ∈ ks := (hks.mem k).mpr (mem_versionsOf.mpr ⟨hheld, haddr⟩)
  have hsplit := hascending
  rw [← take_append_drop limit ks] at hlisted hsplit
  rcases mem_append.mp hlisted with htake | hdrop
  · exact hc.top hk htake
  · have hfull : (ks.take limit).length = limit := by
      rw [length_take]
      have hlen := length_pos_of_mem hdrop
      rw [length_drop] at hlen
      omega
    have hnodup : (ks.take limit).Nodup :=
      (hascending.sublist (take_sublist _ _)).imp fun hab heq => absurd hab (by rw [heq]; exact lt_irrefl _)
    obtain ⟨q, hq, hnot⟩ : ∃ q ∈ ks.take limit, ¬ Covered newerThan p.versions g.held q := by
      by_contra hnone
      have hall : (ks.take limit).toFinset.filter (Covered newerThan p.versions g.held) =
          (ks.take limit).toFinset := by
        refine Finset.filter_true_of_mem fun q hq => ?_
        by_contra hnot
        exact hnone ⟨q, mem_toFinset.mp hq, hnot⟩
      have hcount := hc.count
      rw [hall, toFinset_card_of_nodup hnodup, hfull] at hcount
      omega
    have hqaddr := (mem_versionsOf.mp ((hks.mem q).mp (mem_of_mem_take hq))).2
    have hnewer : q.newerThan k := ⟨haddr.trans hqaddr.symm, (pairwise_append.mp hsplit).2.2 q hq k hdrop⟩
    refine Finset.mem_filter.mpr ⟨hheld, ?_⟩
    by_contra hge
    have hcov : Covered newerThan p.versions g.held k := not_lt.mp hge
    exact hnot (hcov.of_newer newerThan_trans hnewer)

end Thinning

end Tourillon
