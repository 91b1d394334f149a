import Tourillon.Storage.VersionOrder

namespace Tourillon

open Endian Exceptional TopVersions GroupSession RetentionPolicy Key GroupStorage List

variable {g : GroupStorage} {keys : List Key} (p : RetentionPolicy) {k : Key} {X : Nat}
  {addr : PartitionAddress} {ids : List KeyTag}

def RetentionPolicy.plan (p : RetentionPolicy) (g : GroupStorage) (keys : List Key) :
    Except PyError (List (Key × Nat)) := do
  let newest ← p.newest g keys
  let outs ← keys.eraseDups.mapM (p.outside newest)
  let candidates := ((keys.eraseDups.zip outs).filter Prod.snd).map Prod.fst
  let found ← candidates.eraseDups.mapM (removable g)
  return found.reduceOption

def planTotals (found : List (Key × Nat)) : Nat × Nat := (found.length, (found.map Prod.snd).sum)

structure Planned (g : GroupStorage) (keys : List Key) (found : List (Key × Nat)) : Prop where
  listed : ∀ e ∈ found, e.1 ∈ keys
  owned : ∀ e ∈ found, OwnedIn g.tags e.1
  nodup : (found.map Prod.fst).Nodup

theorem planned_of_plan {p : RetentionPolicy} {found : List (Key × Nat)} (h : p.plan g keys = .ok found) :
    Planned g keys found := by
  simp only [plan, bind_eq_ok, pure_eq_ok] at h
  obtain ⟨newest, _, outs, houts, read, hread, rfl⟩ := h
  have hsub := reduceOption_sublist hread
  refine ⟨?_, ?_, (Sequence.nodup_eraseDups _).sublist hsub⟩
  · intro e he
    have hin := mem_eraseDups.mp (hsub.subset (mem_map_of_mem he))
    exact mem_eraseDups.mp ((zip_filter_cases houts).1 e.1 hin).1
  · intro e he
    obtain ⟨k, _, hk⟩ := exists_of_mem_mapM_right hread (reduceOption_mem_iff.mp he)
    obtain ⟨rfl, howned⟩ := removable_eq_some hk
    exact howned

theorem collect_eq [Blake2b] (s : GroupSession) (keys : List Key) (dryRun : Bool) : p.collect s keys dryRun = do
      let found ← p.plan s.storage keys
      if dryRun then return (planTotals found, s)
      else do
        let s ← s.removeRecords (found.map Prod.fst)
        return (planTotals found, s) := by
  simp only [collect, plan, remove]
  cases p.newest s.storage keys with
  | error e => rfl
  | ok newest =>
    simp only [bind, Except.bind]
    cases keys.eraseDups.mapM (p.outside newest) with
    | error e => rfl
    | ok outs =>
      dsimp only
      cases (((keys.eraseDups.zip outs).filter Prod.snd).map Prod.fst).eraseDups.mapM
        (removable s.storage) with
      | error e => rfl
      | ok found =>
        cases dryRun with
        | true => rfl
        | false => rfl

theorem LatestPage.nodup (h : LatestPage g addr X ids) : (ids.map fun i => i.key).Nodup := by
  refine pairwise_map.mpr (h.descending.imp ?_)
  intro a b hab heq
  rw [heq] at hab
  exact lt_irrefl _ hab

theorem LatestPage.outside_iff (h : LatestPage g addr X ids) (hk : k ∈ g.versionsOf addr) :
    X ≤ (ids.filter fun i => k.ts < i.key.ts).length ↔ Covered newerThan X g.held k := by
  have hcard := toFinset_card_of_nodup
    (h.nodup.sublist (filter_sublist (p := fun i : KeyTag => k.ts < i.key.ts).map fun i => i.key))
  rw [length_map] at hcard
  obtain ⟨_, rfl⟩ := mem_versionsOf.mp hk
  unfold Covered
  constructor
  · intro hle
    rw [← hcard] at hle
    refine hle.trans (Finset.card_le_card ?_)
    intro q hq
    obtain ⟨i, hi, rfl⟩ := mem_map.mp (mem_toFinset.mp hq)
    obtain ⟨hin, hlt⟩ := mem_filter.mp hi
    obtain ⟨hheld, haddr⟩ := mem_versionsOf.mp (h.held i hin)
    exact Finset.mem_filter.mpr ⟨hheld, haddr, of_decide_eq_true hlt⟩
  · intro hle
    by_cases hall : ∀ i ∈ ids, k.ts < i.key.ts
    · have hsame : ids.filter (fun i => k.ts < i.key.ts) = ids :=
        filter_eq_self.mpr fun i hi => decide_eq_true (hall i hi)
      rw [hsame, h.length]
      refine le_min le_rfl (hle.trans (Finset.card_le_card ?_))
      intro q hq
      obtain ⟨hheld, hnew⟩ := Finset.mem_filter.mp hq
      exact mem_versionsOf.mpr ⟨hheld, hnew.1⟩
    · obtain ⟨i, hi, hge⟩ : ∃ i ∈ ids, ¬ k.ts < i.key.ts := by
        by_contra hnone
        exact hall fun i hi => by_contra fun hge => hnone ⟨i, hi, hge⟩
      rw [← hcard]
      refine hle.trans (Finset.card_le_card ?_)
      intro q hq
      obtain ⟨hheld, haddr, hlt⟩ := Finset.mem_filter.mp hq
      have hlisted : ∃ j ∈ ids, j.key = q := by
        by_contra hnone
        refine hge (hlt.trans (h.greatest i hi q (mem_versionsOf.mpr ⟨hheld, haddr⟩) ?_))
        exact fun j hj heq => hnone ⟨j, hj, heq⟩
      obtain ⟨j, hj, rfl⟩ := hlisted
      refine mem_toFinset.mpr (mem_map.mpr ⟨j, ?_, rfl⟩)
      exact mem_filter.mpr ⟨hj, decide_eq_true hlt⟩

theorem newest_pages {P : PartitionAddress → List KeyTag → Prop} (hpage : ∀ k ∈ keys, ∃ ids,
      g.latestIdentities p.versions k.partitionAddress = .ok ids ∧ P k.partitionAddress ids) :
    ∃ newest, p.newest g keys = .ok newest ∧ ∀ k ∈ keys, ∃ ids,
      identitiesOf newest k = .ok ids ∧ P k.partitionAddress ids := by
  have hread (addr : PartitionAddress) (ha : addr ∈ (keys.map partitionAddress).eraseDups) :
      ∃ e : PartitionAddress × List KeyTag, (do
        let identities ← g.latestIdentities p.versions addr
        return (addr, identities)) = Except.ok e ∧ e.1 = addr ∧ P addr e.2 := by
    obtain ⟨k, hin, rfl⟩ := mem_map.mp (mem_eraseDups.mp ha)
    obtain ⟨ids, hids, hlatest⟩ := hpage k hin
    refine ⟨(k.partitionAddress, ids), ?_, rfl, hlatest⟩
    rw [hids]
    rfl
  obtain ⟨newest, hnewest, _⟩ := exists_mapM_ok hread
  refine ⟨newest, hnewest, ?_⟩
  intro k hin
  have haddr : k.partitionAddress ∈ (keys.map partitionAddress).eraseDups :=
    mem_eraseDups.mpr (mem_map_of_mem hin)
  obtain ⟨e, he, hrun⟩ := exists_of_mem_mapM hnewest haddr
  obtain ⟨e', hrun', hfst, _⟩ := hread _ haddr
  obtain rfl : e = e' := Except.ok.inj (hrun.symm.trans hrun')
  have hsome : newest.lookup k.partitionAddress ≠ none := by
    intro hnone
    exact absurd hfst.symm (by simpa using lookup_eq_none_iff.mp hnone e he)
  obtain ⟨ids, hlook⟩ := Option.ne_none_iff_exists'.mp hsome
  obtain ⟨addr, ha, hfound⟩ := exists_of_mem_mapM_right hnewest (Sequence.mem_of_lookup_eq_some hlook)
  obtain ⟨e'', hrun'', hfst', hlatest'⟩ := hread addr ha
  obtain rfl := Except.ok.inj (hfound.symm.trans hrun'')
  refine ⟨ids, ?_, ?_⟩
  · rw [identitiesOf, hlook]
  · rw [← hfst'] at hlatest'
    exact hlatest'

theorem newest_latest (hg : Sound g) (ho : ∀ addr, Ordered g addr) (hk : ∀ k ∈ keys, k.Encodable) :
    ∃ newest, p.newest g keys = .ok newest ∧ ∀ k ∈ keys, ∃ ids, identitiesOf newest k = .ok ids ∧
        LatestPage g k.partitionAddress p.versions ids := by
  apply newest_pages p (P := fun addr ids => LatestPage g addr p.versions ids)
  intro k hin
  exact latestIdentities_latest hg ⟨(hk k hin).1, (hk k hin).2.1⟩ (ho k.partitionAddress) p.versions

theorem removable_ok (hg : Sound g) (hk : k ∈ g.held) : ∃ n, removable g k = .ok (some (k, n)) := by
  have henc := hg.encodable_of_held hk
  have hlog := (hg.paired k henc).mp ((hg.mem_held_iff henc).mp hk)
  obtain ⟨log, hlog⟩ := Option.isSome_iff_exists.mp hlog
  obtain ⟨r, hrecord, hkey, hread⟩ := recordAt_stored hg hk hlog
  have hget : g.get .logs (k.encode .logs) = some log := hlog
  rw [← hget] at hrecord
  obtain ⟨_, hclean, _⟩ := foundAt_recordAt hg henc hrecord
  have hvalue : r.value.toBytes = .ok r.value.encode := Value.toBytes_eq_ok.mpr ⟨hclean.quorum, rfl⟩
  refine ⟨(k.encode .tags ++ (r.value.encode ++ r.tag.toBytes)).length + (k.encode .logs).length, ?_⟩
  simp only [removable, hread, bind, Except.bind, hclean.owned, if_true, Record.toBytes,
    hkey, toBytes_tags_eq_ok.mpr ⟨henc, rfl⟩, toBytes_logs_eq_ok.mpr ⟨henc, rfl⟩, hvalue, pure,
    Except.pure]

theorem plan_exact (hg : Sound g) (ho : ∀ addr, Ordered g addr) (hk : ∀ k ∈ keys, k ∈ g.held) :
    ∃ found, p.plan g keys = .ok found ∧ ∀ k, k ∈ found.map Prod.fst ↔
      k ∈ keys ∧ Covered newerThan p.versions g.held k := by
  obtain ⟨newest, hnewest, hids⟩ := newest_latest p hg ho fun k hin => hg.encodable_of_held (hk k hin)
  have houtside (k : Key) (hin : k ∈ keys.eraseDups) : p.outside newest k =
      .ok (decide (Covered newerThan p.versions g.held k)) := by
    have hkeys := mem_eraseDups.mp hin
    obtain ⟨ids, hget, hlatest⟩ := hids k hkeys
    have hiff := hlatest.outside_iff (mem_versionsOf.mpr ⟨hk k hkeys, rfl⟩)
    rw [outside, hget]
    exact congrArg Except.ok (decide_eq_decide.mpr hiff)
  have houts := mapM_ok_of_forall houtside
  have hcandidates (k : Key) : k ∈ (((keys.eraseDups.zip (keys.eraseDups.map fun k =>
      decide (Covered newerThan p.versions g.held k))).filter Prod.snd).map Prod.fst).eraseDups ↔
      k ∈ keys ∧ Covered newerThan p.versions g.held k := by
    rw [mem_eraseDups, Sequence.zip_map_self]
    simp only [mem_map, mem_filter, mem_eraseDups]
    constructor
    · rintro ⟨_, ⟨⟨q, hq, rfl⟩, hcov⟩, rfl⟩
      exact ⟨hq, of_decide_eq_true hcov⟩
    · rintro ⟨hin, hcov⟩
      exact ⟨_, ⟨⟨k, hin, rfl⟩, decide_eq_true hcov⟩, rfl⟩
  obtain ⟨read, hread, _⟩ := exists_mapM_ok (P := fun _ _ => True) fun k hin => by
    obtain ⟨n, hn⟩ := removable_ok hg (hk k ((hcandidates k).mp hin).1)
    exact ⟨_, hn, trivial⟩
  refine ⟨read.reduceOption, ?_, ?_⟩
  · simp only [plan, hnewest, houts, bind, Except.bind, hread, pure, Except.pure]
  · intro k
    rw [← hcandidates k, mem_map]
    constructor
    · rintro ⟨e, he, rfl⟩
      exact (reduceOption_sublist hread).subset (mem_map_of_mem he)
    · intro hin
      obtain ⟨o, ho, hrun⟩ := exists_of_mem_mapM hread hin
      obtain ⟨n, hn⟩ := removable_ok hg (hk k ((hcandidates k).mp hin).1)
      obtain rfl : o = some (k, n) := Except.ok.inj (hrun.symm.trans hn)
      exact ⟨(k, n), reduceOption_mem_iff.mpr ho, rfl⟩

theorem dropVersions_get (hk : ∀ q ∈ keys, q.Encodable) (henc : k.Encodable) (hnot : k ∉ keys) (g : GroupStorage) :
    (keys.foldl dropVersion g).logs.get (k.encode .logs) = g.logs.get (k.encode .logs) ∧
      (keys.foldl dropVersion g).tags.get (k.encode .tags) = g.tags.get (k.encode .tags) := by
  have hl : k.encode .logs ∉ keys.map (encode .logs) := by
    intro hin
    obtain ⟨q, hq, heq⟩ := mem_map.mp hin
    exact hnot (encode_logs_inj (hk q hq) henc heq ▸ hq)
  have ht : k.encode .tags ∉ keys.map (encode .tags) := by
    intro hin
    obtain ⟨q, hq, heq⟩ := mem_map.mp hin
    exact hnot (encode_tags_inj (hk q hq) henc heq ▸ hq)
  rw [(get_foldl_dropVersion _).1, (get_foldl_dropVersion _).2, if_neg hl, if_neg ht]
  exact ⟨rfl, rfl⟩

theorem read_eq_recordAt (henc : k.Encodable) (g : GroupStorage) :
    g.read k = recordAt k (g.get .tags (k.encode .tags)) (g.get .logs (k.encode .logs)) := by
  simp only [GroupStorage.read, GroupStorage.getMany, mapM_cons, mapM_nil,
    toBytes_tags_eq_ok.mpr ⟨henc, rfl⟩, toBytes_logs_eq_ok.mpr ⟨henc, rfl⟩, bind, Except.bind,
    pure, Except.pure]
  cases recordAt k (g.get .tags (k.encode .tags)) (g.get .logs (k.encode .logs)) with
  | error e => rfl
  | ok r => rfl

theorem read_congr {g' : GroupStorage} (henc : k.Encodable)
    (hl : g'.logs.get (k.encode .logs) = g.logs.get (k.encode .logs))
    (ht : g'.tags.get (k.encode .tags) = g.tags.get (k.encode .tags)) : g'.read k = g.read k := by
  rw [read_eq_recordAt henc, read_eq_recordAt henc]
  simp only [GroupStorage.get, GroupStorage.db, hl, ht]

section Removal

variable [Blake2b] {g : GroupStorage} {s : GroupSession}

theorem count_foldAt (tags : Db) (ref : Bytes) :
    (foldAt tags ref).count = ((tags.entries.filter (coveredBy ref)).length : Int) := by
  have hsum := DigestCell.count_sum_ofBytes ((tags.entries.filter (coveredBy ref)).map Prod.fst)
  rw [map_map, length_map] at hsum
  exact hsum

theorem encodable_foldAt_of_sublist {tags tags' : Db} (h : tags'.entries.Sublist tags.entries)
    {ref : Bytes} (hfit : (foldAt tags ref).Encodable) : (foldAt tags' ref).Encodable := by
  have hle := (h.filter (coveredBy ref)).length_le
  obtain ⟨_, hlt⟩ := hfit
  rw [count_foldAt, Int.toNat_natCast] at hlt
  constructor
  · rw [count_foldAt]
    exact Int.natCast_nonneg _
  · rw [count_foldAt, Int.toNat_natCast]
    exact hle.trans_lt hlt

theorem flush_ok (h : SessionExact s) (hfit : ∀ ref, IsDigestRef ref → (foldAt s.storage.tags ref).Encodable) :
    ∃ s', s.flush = .ok s' := by
  have hupdate (e : Bytes × DigestCell) (he : e ∈ s.deltas.entries) : ∃ u, s.update e = .ok u ∧ True := by
    have hdelta : s.deltas.get e.1 = some e.2 := OrderedMap.get_eq_some.mpr he
    have hloaded := h.loaded e.1 (by rw [hdelta]; simp)
    obtain ⟨c, hc⟩ := Option.ne_none_iff_exists'.mp hloaded
    have hknown := h.known e.1 c hc
    rw [hdelta, Option.getD_some] at hknown
    have hencodable := hfit e.1 (h.digests e.1 hloaded)
    rw [← hknown] at hencodable
    unfold update
    rw [hc]
    dsimp only
    split
    · exact ⟨_, rfl, trivial⟩
    · rw [DigestCell.toBytes_eq_ok.mpr ⟨hencodable, rfl⟩]
      exact ⟨_, rfl, trivial⟩
  obtain ⟨updates, hupdates, _⟩ := exists_mapM_ok hupdate
  rw [flush, hupdates]
  exact ⟨_, rfl⟩

theorem loadCells_ok (h : DigestExact g) (hs : s.storage.metadata = g.metadata) {refs : List Bytes}
    (hrefs : ∀ ref ∈ refs, IsDigestRef ref) : ∃ s', s.loadCells refs = .ok s' := by
  have hcell (ref : Bytes) (href : ref ∈ refs) : ∃ e : Bytes × DigestCell, (do
      let c ← cell (s.storage.get .metadata ref)
      return (ref, c)) = Except.ok e ∧ True := by
    have hexact : cell (s.storage.metadata.get ref) = .ok (foldAt g.tags ref) := by
      rw [hs]
      exact cell_of_exactAt (h.cells ref (hrefs ref href))
    refine ⟨(ref, foldAt g.tags ref), ?_, trivial⟩
    show (do
      let c ← cell (s.storage.metadata.get ref)
      return (ref, c)) = _
    rw [hexact]
    rfl
  obtain ⟨cells, hcells, _⟩ := exists_mapM_ok hcell
  rw [loadCells, hcells]
  exact ⟨_, rfl⟩

structure Removed (keys : List Key) (g g' : GroupStorage) : Prop where
  logs : g'.logs = (keys.foldl dropVersion g).logs
  tags : g'.tags = (keys.foldl dropVersion g).tags
  exact : DigestExact g'

theorem removeRecords_ok (h : DigestExact g) (hn : keys.Nodup) (hk : ∀ k ∈ keys, OwnedIn g.tags k) :
    ∃ s s', (start g).removeRecords keys = .ok s ∧ s.flush = .ok s' ∧ Removed keys g s'.storage := by
  have henc : ∀ k ∈ keys, k.Encodable := fun k hin => (hk k hin).1
  obtain ⟨refs, hrefs⟩ := unknownCells_ok (s := start g) henc
  have hmem := mem_unknownCells henc hrefs
  obtain ⟨s₁, hl⟩ := loadCells_ok h (s := .start g) rfl fun ref href => by
    obtain ⟨⟨k, _, hc⟩, _⟩ := (hmem ref).mp href
    exact isDigestRef_of_mem_cellRefs hc
  have hrun : (start g).removeRecords keys = .ok { s₁ with
      storage := keys.foldl dropVersion s₁.storage
      deltas := keys.foldl (fun m k => addCell m k (-DigestCell.of k)) s₁.deltas } := by
    rw [removeRecords, hrefs]
    show (do
      let s ← (start g).loadCells refs
      keys.foldlM removeRecord s) = _
    rw [hl]
    exact foldlM_removeRecord_ok s₁ henc
  obtain ⟨_, hs₁⟩ := loadCells_cases hl
  have hstorage : s₁.storage = g := by
    rw [← hs₁]
    rfl
  have hexact := sessionExact_drop (sessionExact_start h) hn hk hrefs hl
  have hfit (ref : Bytes) (href : IsDigestRef ref) :
      (foldAt (keys.foldl dropVersion s₁.storage).tags ref).Encodable := by
    have hsub : (keys.foldl dropVersion g).tags.entries.Sublist g.tags.entries := by
      rw [entries_foldl_dropVersion.2]
      exact filter_sublist
    rw [hstorage]
    exact encodable_foldAt_of_sublist hsub (h.cells ref href).fits
  obtain ⟨s', hf⟩ := flush_ok hexact hfit
  obtain ⟨_, _, hlogs, htags, _, _⟩ := flush_cases hf
  refine ⟨_, s', hrun, hf, ?_, ?_, (digestExact_flush hexact hf).2⟩
  · rw [hlogs, ← hstorage]
  · rw [htags, ← hstorage]

structure Collected (p : RetentionPolicy) (keys : List Key) (g g' : GroupStorage) (count : Nat) :
    Prop where
  clean : Clean g'
  held : g'.held = g.held \ keys.toFinset.filter (Covered newerThan p.versions g.held)
  count : count = (keys.toFinset.filter (Covered newerThan p.versions g.held)).card
  reads : ∀ k ∈ g'.held, g'.read k = g.read k

theorem collect_exact (p : RetentionPolicy) (hg : Clean g) (ho : ∀ addr, Ordered g addr)
    (hk : ∀ k ∈ keys, k ∈ g.held) : ∃ totals s s', p.collect (.start g) keys = .ok (totals, s) ∧ s.flush = .ok s' ∧
      Collected p keys g s'.storage totals.1 := by
  obtain ⟨found, hplan, hfound⟩ := plan_exact p hg.toSound ho hk
  have hplanned := planned_of_plan hplan
  have howned : ∀ k ∈ found.map Prod.fst, OwnedIn g.tags k := by
    intro k hin
    obtain ⟨e, he, rfl⟩ := mem_map.mp hin
    exact hplanned.owned e he
  have henc : ∀ k ∈ found.map Prod.fst, k.Encodable := fun k hin => (howned k hin).1
  have hset : (found.map Prod.fst).toFinset =
      keys.toFinset.filter (Covered newerThan p.versions g.held) := by
    ext k
    rw [mem_toFinset, hfound k, Finset.mem_filter, mem_toFinset]
  obtain ⟨s, s', hremove, hflush, hremoved⟩ := removeRecords_ok hg.toDigestExact hplanned.nodup howned
  refine ⟨planTotals found, s, s', ?_, hflush, ?_⟩
  · have hstart : p.plan (start g).storage keys = .ok found := hplan
    rw [collect_eq, hstart]
    show (do
      let s ← (start g).removeRecords (found.map Prod.fst)
      return (planTotals found, s)) = _
    rw [hremove]
    rfl
  · have hsound := (hg.toSound.dropVersions henc).congr hremoved.logs hremoved.tags
    have hheld : s'.storage.held = g.held \ (found.map Prod.fst).toFinset := by
      rw [held_congr hremoved.tags]
      exact (dropVersions_held henc hg.toHolding).2
    refine ⟨⟨hsound, hremoved.exact⟩, ?_, ?_, ?_⟩
    · rw [hheld, hset]
    · rw [← hset, toFinset_card_of_nodup hplanned.nodup, length_map]
      rfl
    · intro k hin
      have hkenc := hsound.encodable_of_held hin
      rw [hheld] at hin
      have hnot : k ∉ found.map Prod.fst := fun hmem => (Finset.mem_sdiff.mp hin).2 (mem_toFinset.mpr hmem)
      obtain ⟨hlogs, htags⟩ := dropVersions_get henc hkenc hnot g
      rw [← hremoved.logs] at hlogs
      rw [← hremoved.tags] at htags
      exact read_congr hkenc hlogs htags

end Removal

end Tourillon
