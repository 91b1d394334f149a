import Tourillon.AntiEntropy.RangeDigest
import Tourillon.Storage.CursorPaging

namespace Tourillon

open Endian Paging Prog

variable {c : Option Nat} {limit : Nat}

def GroupStorage.rootTable (g : GroupStorage) : List (Nat × DigestCell) := g.cellTable rootPrefix rootPid

def RootsLaid (g : GroupStorage) : Prop := Laid rootPrefix rootRef (256 ^ pidSize) g

theorem mapM_of_fits {f : Nat → Except PyError Bytes} {ref : Nat → Bytes} (h : ∀ a ∈ c, f a = .ok (ref a)) :
    c.mapM f = .ok (c.map ref) := by
  cases c with
  | none => rfl
  | some a =>
    rw [Option.mapM_some, h a rfl]
    rfl

theorem rootPage_eq {g : GroupStorage} (h : RootsLaid g) (hc : ∀ a ∈ c, a < 256 ^ pidSize) (hl : 1 ≤ limit) :
    g.rootPage c limit = .ok (cut Prod.fst limit (after Prod.fst c g.rootTable)) := by
  have hstart : c.mapM rootKey = .ok (c.map rootRef) :=
    mapM_of_fits fun a ha => rootKey_eq_ok.mpr ⟨hc a ha, rfl⟩
  rw [GroupStorage.rootPage, if_neg (Nat.not_lt.mpr hl), hstart]
  exact cellPage_eq rootIndex h hc limit

theorem catalogue_sessionRootPage (hl : 1 ≤ limit) :
    Catalogue Prod.fst limit (fun g c => GroupStorage.rootPage g c limit)
      (fun b => PrunedIn .metadata (rootRef b)) RootsLaid (· < 256 ^ pidSize) GroupStorage.rootTable some where
  sorted := (catalogue_cellPage rootIndex limit).sorted
  fits := (catalogue_cellPage rootIndex limit).fits
  paged g c h hfits := by rw [rootPage_eq h hfits hl, List.filterMap_some]
  trimmed := (catalogue_cellPage rootIndex limit).trimmed

namespace LocalStore

variable (c : Cluster) (node : String)

def rootsFrom (G : Nat → GroupStorage) (group : Nat) : List (Nat × DigestCell) :=
  (List.range' group (c.partitioner.totalGroups - group)).flatMap fun group => (G group).rootTable

structure RootsPlaced (G : Nat → GroupStorage) : Prop where
  laid : ∀ group < c.partitioner.totalGroups, RootsLaid (G group)
  own : ∀ group < c.partitioner.totalGroups, ∀ e ∈ (G group).rootTable, c.groupFor e.1 = group

section Tables

variable {c} {G : Nat → GroupStorage} {group : Nat} {e : Nat × DigestCell}

theorem rootsFrom_of_ge (h : c.partitioner.totalGroups ≤ group) : rootsFrom c G group = [] := by
  rw [rootsFrom, Nat.sub_eq_zero_of_le h]
  rfl

theorem rootsFrom_of_lt (h : group < c.partitioner.totalGroups) :
    rootsFrom c G group = (G group).rootTable ++ rootsFrom c G (group + 1) := by
  obtain ⟨n, hn⟩ : ∃ n, c.partitioner.totalGroups - group = n + 1 := ⟨_, (Nat.succ_pred_eq_of_pos (by omega)).symm⟩
  rw [rootsFrom, rootsFrom, hn, List.range'_succ, List.flatMap_cons, show
    c.partitioner.totalGroups - (group + 1) = n by omega]

theorem mem_rootsFrom_of_succ (h : e ∈ rootsFrom c G (group + 1)) : e ∈ rootsFrom c G group := by
  rcases Nat.lt_or_ge group c.partitioner.totalGroups with hlt | hge
  · rw [rootsFrom_of_lt hlt]
    exact List.mem_append_right _ h
  · rw [rootsFrom_of_ge (by omega)] at h
    cases h

theorem after_rootsFrom (hgroup : group < c.partitioner.totalGroups) {cursor : Option Nat}
    (hbelow : ∀ a ∈ cursor, ∀ e ∈ rootsFrom c G (group + 1), a < e.1) :
    after Prod.fst cursor (rootsFrom c G group) =
      after Prod.fst cursor (G group).rootTable ++ rootsFrom c G (group + 1) := by
  rw [rootsFrom_of_lt hgroup, after_append]
  congr 1
  exact after_eq_self fun e he a ha => hbelow a ha e he

theorem RootsPlaced.group_of_mem (h : RootsPlaced c G) (he : e ∈ rootsFrom c G group) : group ≤ c.groupFor e.1 := by
  obtain ⟨i, hi, hei⟩ := List.mem_flatMap.mp he
  obtain ⟨hlow, hhigh⟩ := List.mem_range'_1.mp hi
  rw [h.own i (by omega) e hei]
  exact hlow

theorem lt_of_groupFor_lt {i j : Nat} (h : c.groupFor i < c.groupFor j) : i < j :=
  lt_of_not_ge fun hle => absurd (c.partitioner.groupFor_mono hle) (not_le.mpr h)

theorem RootsPlaced.lt_later (h : RootsPlaced c G) (hgroup : group < c.partitioner.totalGroups)
    {f : Nat × DigestCell} (he : e ∈ (G group).rootTable) (hf : f ∈ rootsFrom c G (group + 1)) : e.1 < f.1 := by
  apply lt_of_groupFor_lt (c := c)
  rw [h.own group hgroup e he]
  exact h.group_of_mem hf

theorem RootsPlaced.sorted (h : RootsPlaced c G) (n group : Nat) (hn : c.partitioner.totalGroups - group = n) :
    (rootsFrom c G group).Pairwise fun a b => a.1 < b.1 := by
  induction n generalizing group with
  | zero =>
    rw [rootsFrom_of_ge (by omega)]
    exact .nil
  | succ n ih =>
    have hgroup : group < c.partitioner.totalGroups := by omega
    rw [rootsFrom_of_lt hgroup]
    refine List.pairwise_append.mpr ⟨?_, ih (group + 1) (by omega), ?_⟩
    · exact (catalogue_cellPage rootIndex 1).sorted _ (h.laid group hgroup)
    · exact fun e he f hf => h.lt_later hgroup he hf

theorem RootsPlaced.after_skip (h : RootsPlaced c G) {a : Nat} (n group : Nat)
    (hn : group + n = c.groupFor (a + 1)) : after Prod.fst (some a) (rootsFrom c G group) =
      after Prod.fst (some a) (rootsFrom c G (c.groupFor (a + 1))) := by
  induction n generalizing group with
  | zero => rw [← hn, Nat.add_zero]
  | succ n ih =>
    rw [← ih (group + 1) (by omega)]
    rcases Nat.lt_or_ge group c.partitioner.totalGroups with hlt | hge
    · rw [rootsFrom_of_lt hlt, after_append]
      rw [after_eq_nil]
      · exact List.nil_append _
      · intro e he
        have hbelow : e.1 < a + 1 := by
          apply lt_of_groupFor_lt (c := c)
          rw [h.own group hlt e he]
          omega
        omega
    · rw [rootsFrom_of_ge hge, rootsFrom_of_ge (by omega)]

end Tables

section RootPages

variable {c node} {G : Nat → GroupStorage} {e : Nat × DigestCell}

def Holds (node : String) (G : Nat → GroupStorage) (w : World) : Prop :=
  ∀ group, w.shared.storage node group = G group

theorem undisturbed_holds (h : ∀ group, c.Steady node group) : Undisturbed c (Holds node G) where
  step w hw group := ((h group).step w.tick w.shared).trans (hw group)
  fold _ _ hw := hw

structure Gathering (c : Cluster) (G : Nat → GroupStorage) (limit : Nat) (whole : List (Nat × DigestCell))
    (s : Nat × List (Nat × DigestCell) × Option Nat) : Prop where
  fits : ∀ a ∈ s.2.2, a < 256 ^ pidSize
  below : ∀ a ∈ s.2.2, ∀ e ∈ rootsFrom c G (s.1 + 1), a < e.1
  whole : whole = s.2.1 ++ after Prod.fst s.2.2 (rootsFrom c G s.1)
  room : s.2.1.length < limit ∨ s.2.1.length = limit ∧ s.1 < c.partitioner.totalGroups

variable {limit : Nat} {whole roots : List (Nat × DigestCell)} {group : Nat} {cursor : Option Nat}

section

variable (h : Gathering c G limit whole (group, roots, cursor))

include h

theorem Gathering.done (hgroup : c.partitioner.totalGroups ≤ group) : (roots, none) = cut Prod.fst limit whole := by
  have hroom : roots.length < limit := h.room.resolve_right fun hr => absurd hr.2 (not_lt.mpr hgroup)
  have hwhole : whole = roots := by
    rw [h.whole, rootsFrom_of_ge hgroup]
    exact List.append_nil _
  rw [hwhole, cut, List.take_of_length_le hroom.le, if_neg hroom.ne]

theorem Gathering.full (hfull : ¬ roots.length < limit) (hlast : roots.getLast? = some e) :
    (roots, some e.1) = cut Prod.fst limit whole := by
  have hlen : roots.length = limit := (h.room.resolve_left hfull).1
  have htake : whole.take limit = roots := by
    rw [h.whole]
    exact List.take_left' hlen
  rw [cut, htake, if_pos hlen, hlast]
  rfl

theorem Gathering.advance (hplaced : RootsPlaced c G) (hgroup : group < c.partitioner.totalGroups)
    (hshort : (after Prod.fst cursor (G group).rootTable).length < limit - roots.length) :
    Gathering c G limit whole (group + 1, roots ++ after Prod.fst cursor (G group).rootTable,
      ((after Prod.fst cursor (G group).rootTable).getLast?.map Prod.fst).or cursor) := by
  obtain ⟨next, hnext⟩ : ∃ next, next =
    ((after Prod.fst cursor (G group).rootTable).getLast?.map Prod.fst).or cursor := ⟨_, rfl⟩
  have hcursor (a : Nat) (ha : a ∈ next) : a ∈ cursor ∨ ∃ e ∈ (G group).rootTable, e.1 = a := by
    rw [hnext] at ha
    rcases Option.or_eq_some_iff.mp ha with hlast | ⟨_, hold⟩
    · obtain ⟨e, he, rfl⟩ := Option.map_eq_some_iff.mp hlast
      exact .inr ⟨e, (mem_after.mp (List.mem_of_getLast? he)).1, rfl⟩
    · exact .inl hold
  have hlater (a : Nat) (ha : a ∈ next) (e : Nat × DigestCell) (he : e ∈ rootsFrom c G (group + 1)) :
      a < e.1 := by
    rcases hcursor a ha with hold | ⟨f, hf, rfl⟩
    · exact h.below a hold e he
    · exact hplaced.lt_later hgroup hf he
  rw [← hnext]
  constructor
  case fits =>
    intro a ha
    rcases hcursor a ha with hold | ⟨f, hf, rfl⟩
    · exact h.fits a hold
    · exact (catalogue_cellPage rootIndex 1).fits _ (hplaced.laid group hgroup) f hf
  case below => exact fun a ha e he => hlater a ha e (mem_rootsFrom_of_succ he)
  case whole =>
    rw [h.whole, after_rootsFrom hgroup h.below, after_eq_self fun e he a ha => hlater a ha e he, List.append_assoc]
  case room =>
    refine .inl ?_
    dsimp only
    rw [List.length_append]
    omega

theorem Gathering.fill (hplaced : RootsPlaced c G) (hgroup : group < c.partitioner.totalGroups)
    (hroom : roots.length < limit) {page : List (Nat × DigestCell)}
    (he : e ∈ after Prod.fst cursor (G group).rootTable) (hlen : page.length = limit - roots.length)
    (hsplit : after Prod.fst cursor (G group).rootTable =
      page ++ after Prod.fst (some e.1) (after Prod.fst cursor (G group).rootTable)) :
    Gathering c G limit whole (group, roots ++ page, some e.1) := by
  obtain ⟨hmem, habove⟩ := mem_after.mp he
  have hlater : ∀ a ∈ some e.1, ∀ f ∈ rootsFrom c G (group + 1), a < f.1 := by
    rintro a ⟨⟩ f hf
    exact hplaced.lt_later hgroup hmem hf
  constructor
  case fits =>
    rintro a ⟨⟩
    exact (catalogue_cellPage rootIndex 1).fits _ (hplaced.laid group hgroup) e hmem
  case below => exact hlater
  case whole =>
    rw [after_after habove] at hsplit
    rw [h.whole, after_rootsFrom hgroup h.below, hsplit, after_rootsFrom hgroup hlater]
    simp only [List.append_assoc]
  case room =>
    refine .inr ⟨?_, hgroup⟩
    dsimp only
    rw [List.length_append]
    omega

end

theorem yields_rootPage (hsteady : ∀ group, c.Steady node group) (hplaced : RootsPlaced c G) (hl : 1 ≤ limit)
    (hfuel : c.partitioner.totalGroups + 1 < c.fuel) (hc : ∀ a ∈ cursor, a < 256 ^ pidSize) :
    Yields (Holds node G) (rootPage c node cursor limit)
      fun r => r = cut Prod.fst limit (after Prod.fst cursor (rootsFrom c G 0)) := by
  refine Yields.iterate (J := Gathering c G limit (after Prod.fst cursor (rootsFrom c G 0)))
    (fun s => c.partitioner.totalGroups - s.1 + if s.2.1.length < limit then 1 else 0) ?_ ?_ ?_
  · rintro ⟨group, roots, cursor⟩ h
    dsimp only
    by_cases hgroup : c.partitioner.totalGroups ≤ group
    · rw [if_pos hgroup]
      exact Yields.ret (h.done hgroup)
    rw [if_neg hgroup]
    rw [not_le] at hgroup
    by_cases hroom : roots.length < limit
    · rw [if_pos hroom]
      have hleft : 1 ≤ limit - roots.length := by omega
      have hpage : (G group).rootPage cursor (limit - roots.length) = _ :=
        rootPage_eq (hplaced.laid group hgroup) h.fits hleft
      have hsorted := (catalogue_cellPage rootIndex 1).sorted _ (hplaced.laid group hgroup)
      apply Yields.bind ((undisturbed_holds hsteady).foldSession (fun w hw => ⟨_, by rw [hw group, hpage], rfl⟩) _)
      rintro _ rfl
      obtain ⟨table, htable⟩ : ∃ table, table = after Prod.fst cursor (G group).rootTable := ⟨_, rfl⟩
      have hascending := after_sorted hsorted cursor
      rw [show (G group).cellTable rootPrefix rootPid = (G group).rootTable from rfl, ← htable] at hascending
      rw [← htable]
      rcases cut_split hascending hleft with ⟨hshort, hcut⟩ | ⟨e, he, hcut, hlen, hlast, hsplit⟩
      · have hlong : ¬ limit ≤ (roots ++ table).length := by
          rw [List.length_append]
          omega
        rw [hcut]
        dsimp only
        rw [if_pos Option.isNone_none, if_neg hlong]
        refine Yields.ret ⟨?_, ?_⟩
        · rw [htable] at hshort ⊢
          exact h.advance hplaced hgroup hshort
        · dsimp only
          rw [if_pos hroom, if_pos (Nat.lt_of_not_le hlong)]
          omega
      · rw [hcut]
        dsimp only
        rw [if_neg (by simp), hlast]
        refine Yields.ret ⟨?_, ?_⟩
        · rw [htable] at he hsplit hlen ⊢
          exact h.fill hplaced hgroup hroom he hlen hsplit
        · dsimp only
          rw [if_pos hroom, if_neg]
          · omega
          · rw [List.length_append]
            omega
    · rw [if_neg hroom]
      have hne : roots ≠ [] := by
        rintro rfl
        exact hroom hl
      obtain ⟨e, hlast⟩ := Option.isSome_iff_exists.mp (List.getLast?_isSome.mpr hne)
      rw [hlast]
      exact Yields.ret (h.full hroom hlast)
  · cases cursor with
    | none => exact ⟨nofun, nofun, rfl, .inl hl⟩
    | some a =>
      refine ⟨hc, ?_, ?_, .inl hl⟩
      · rintro b ⟨⟩ e he
        have hlow := hplaced.group_of_mem he
        refine lt_of_groupFor_lt (c := c) ?_
        exact (c.partitioner.groupFor_mono (Nat.le_succ a)).trans_lt hlow
      · exact hplaced.after_skip _ 0 (Nat.zero_add _)
  · split
    · omega
    · omega

theorem rootPage_run (hsteady : ∀ group, c.Steady node group) {w : World}
    (hplaced : RootsPlaced c (w.shared.storage node)) (hl : 1 ≤ limit)
    (hfuel : c.partitioner.totalGroups + 1 < c.fuel) (hc : ∀ a ∈ cursor, a < 256 ^ pidSize) :
    (rootPage c node cursor limit w).1 =
      .ok (cut Prod.fst limit (after Prod.fst cursor (rootsFrom c (w.shared.storage node) 0))) := by
  obtain ⟨r, w', hrun, _, rfl⟩ := yields_rootPage hsteady hplaced hl hfuel hc w fun _ => rfl
  rw [hrun]

def RootsPruned (c : Cluster) (node : String) (b : Nat) (w w' : World) : Prop :=
  ∀ group < c.partitioner.totalGroups,
    PrunedIn .metadata (rootRef b) (w.shared.storage node group) (w'.shared.storage node group)

theorem RootsPlaced.pruned {G' : Nat → GroupStorage} (h : RootsPlaced c G)
    (hsub : ∀ group < c.partitioner.totalGroups, ∀ e ∈ (G' group).metadata.entries, e ∈ (G group).metadata.entries) :
    RootsPlaced c G' where
  laid group hgroup := ⟨fun e he => (h.laid group hgroup).cells e (hsub group hgroup e he)⟩
  own group hgroup e he := by
    obtain ⟨kv, hkv, rfl⟩ := List.mem_map.mp he
    obtain ⟨hmem, hpre⟩ := List.mem_filter.mp hkv
    exact h.own group hgroup _ (List.mem_map_of_mem (List.mem_filter.mpr ⟨hsub group hgroup kv hmem, hpre⟩))

theorem catalogue_rootPage (hsteady : ∀ group, c.Steady node group) (hl : 1 ≤ limit)
    (hfuel : c.partitioner.totalGroups + 1 < c.fuel) :
    Catalogue Prod.fst limit (fun w cursor => (rootPage c node cursor limit w).1) (RootsPruned c node)
      (fun w => RootsPlaced c (w.shared.storage node)) (· < 256 ^ pidSize)
      (fun w => rootsFrom c (w.shared.storage node) 0) some where
  sorted w h := h.sorted _ 0 rfl
  fits w h e he := by
    obtain ⟨group, hgroup, hmem⟩ := List.mem_flatMap.mp he
    have hlt := (List.mem_range'_1.mp hgroup).2
    exact (catalogue_cellPage rootIndex 1).fits _ (h.laid group (by omega)) e hmem
  paged w cursor h hfits := by rw [rootPage_run hsteady h hl hfuel hfits, List.filterMap_some]
  trimmed b w w' h hb htrim := by
    refine ⟨h.pruned fun group hgroup e he => (htrim group hgroup).deleted e he, ?_⟩
    rw [after, after, rootsFrom, rootsFrom, List.filter_flatMap, List.filter_flatMap]
    refine List.flatMap_congr ?_
    intro group hgroup
    have hlt := (List.mem_range'_1.mp hgroup).2
    have hgroup : group < c.partitioner.totalGroups := by omega
    exact ((catalogue_cellPage rootIndex 1).trimmed b _ _ (h.laid group hgroup) hb (htrim group hgroup)).2

end RootPages

end LocalStore

end Tourillon
