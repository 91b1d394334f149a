import Tourillon.Storage.Pages

namespace Tourillon

open Endian Exceptional Key GroupStorage List GroupSession RetentionPolicy OrderedMap PartitionAddress

structure Stored [Blake2b] (g : GroupStorage) : Prop extends DigestExact g where
  logged : WellLogged g.logs

theorem logged_invariant : VersionInvariant (fun _ => True) fun g => WellLogged g.logs where
  congr hl _ h := by
    rw [hl]
    exact h
  add _ hkey h := by
    intro e he
    rcases mem_insertNew he with rfl | hold
    · exact ⟨_, hkey, rfl⟩
    · exact h e hold
  drop _ h := fun e he => h e (mem_of_mem_filter he)

theorem stored_runAll [Blake2b] (ts : List (Transaction SessionCall)) :
    Stored (Transaction.runAll SessionCall.run ts .empty) where
  toDigestExact := digestExact_runAll ts digestExact_empty
  logged := logged_invariant.runAll (fun _ _ _ _ _ _ => trivial) nofun

def Outside (X : Nat) (g : GroupStorage) (k : Key) : Prop :=
  ∃ ids, g.latestIdentities X k.partitionAddress = .ok ids ∧
    X ≤ (ids.filter fun i => k.ts < i.key.ts).length

structure Lagging (X : Nat) (after : Option Bytes) (removed : List Key) (g d : GroupStorage) : Prop where
  encodable : ∀ k ∈ removed, k.Encodable
  passed : ∀ k ∈ removed, ∃ b ∈ after, k.encode .tags ≤ b
  outside : ∀ k ∈ removed, Outside X d k
  logs : g.logs.entries = d.logs.entries.filter fun e => e.1 ∉ removed.map (encode .logs)
  tags : g.tags.entries = d.tags.entries.filter fun e => e.1 ∉ removed.map (encode .tags)

theorem lagging_refl (X : Nat) (after : Option Bytes) (g : GroupStorage) : Lagging X after [] g g where
  encodable := nofun
  passed := nofun
  outside := nofun
  logs := by simp
  tags := by simp

theorem take_filter_eq {α : Type} {q : α → Bool} {l : List α} {n : Nat} (h : ∀ a ∈ l.take n, q a) :
    (l.filter q).take n = l.take n := by
  induction l generalizing n with
  | nil => rfl
  | cons a l ih =>
    cases n with
    | zero => rfl
    | succ n =>
      have ha : q a = true := h a (by simp)
      rw [filter_cons_of_pos ha, take_succ_cons, take_succ_cons, ih]
      intro b hb
      exact h b (by simp [hb])

def newestPage (d : Db) (pre : Bytes) (limit : Nat) : List (Bytes × Bytes) :=
  (((d.below (pre ++ [255])).filter fun e => pre.isPrefixOf e.1).reverse).take limit

theorem mem_of_newestPage {d : Db} {pre : Bytes} {limit : Nat} {e : Bytes × Bytes}
    (h : e ∈ newestPage d pre limit) : e ∈ d.entries :=
  mem_of_mem_filter (mem_of_mem_filter (mem_reverse.mp (mem_of_mem_take h)))

theorem list_newest_eq (g : GroupStorage) (pre : Bytes) (limit : Nat) :
    g.list .logs (some pre) none limit true = newestPage g.logs pre limit := by
  have hsorted : (g.logs.below (pre ++ [255])).reverse.Pairwise
      (fun a b => startsWith (some pre) b.1 → startsWith (some pre) a.1) := by
    rw [pairwise_reverse]
    refine (g.logs.sorted.filter _).imp_of_mem ?_
    intro a b ha hb hab hp
    simp only [startsWith, isPrefixOf_iff_prefix] at hp ⊢
    exact prefix_of_between hp (prefix_append pre [255]) hab.le
      (mem_below.mp hb).2.le
  show ((g.logs.below (pre ++ [255])).reverse.takeWhile _).take limit = _
  rw [Sequence.takeWhile_eq_filter hsorted, filter_reverse]
  rfl

theorem Outside.not_listed {X : Nat} {d : GroupStorage} {k : Key} (hk : k.Encodable) (h : Outside X d k) :
    ∀ e ∈ newestPage d.logs k.partitionAddress.encode X, e.1 ≠ k.encode .logs := by
  rintro e he hkey
  obtain ⟨ids, hids, hcount⟩ := h
  simp only [GroupStorage.latestIdentities, bind_eq_ok, pure_eq_ok, toBytes_eq_ok] at hids
  obtain ⟨_, ⟨_, rfl⟩, keys, hkeys, found, hfound, rfl⟩ := hids
  have hin : e.1 ∈ d.keys .logs (some k.partitionAddress.encode) none X true := by
    rw [GroupStorage.keys, list_newest_eq]
    exact mem_map_of_mem he
  obtain ⟨q, hq, hdecode⟩ := exists_of_mem_mapM hkeys hin
  rw [hkey, fromBytes_logs_encode hk] at hdecode
  obtain rfl : k = q := Except.ok.inj hdecode
  have hlen : keys.length ≤ X := by
    have hp := d.length_list_le .logs (some k.partitionAddress.encode) none X true
    have hsame := (mapM_eq_ok.mp hkeys).length_eq
    rw [GroupStorage.keys, length_map] at hsame
    omega
  have hsub := identities_sublist hfound
  have hfilter := filter_sublist (p := fun i : KeyTag => decide (k.ts < i.key.ts))
    (l := found.reduceOption)
  have hall : found.reduceOption.map (fun i => i.key) = keys := by
    refine hsub.eq_of_length_le ?_
    rw [length_map]
    exact hlen.trans (hcount.trans hfilter.length_le)
  have hsame : found.reduceOption.filter (fun i => k.ts < i.key.ts) = found.reduceOption := by
    refine hfilter.eq_of_length_le ?_
    have hle := hsub.length_le
    rw [length_map] at hle
    exact hle.trans (hlen.trans hcount)
  rw [← hall] at hq
  obtain ⟨i, hi, rfl⟩ := mem_map.mp hq
  rw [← hsame] at hi
  exact absurd (of_decide_eq_true (mem_filter.mp hi).2) (lt_irrefl _)

namespace Lagging

variable {X : Nat} {after : Option Bytes} {removed : List Key} {g d : GroupStorage}

section

variable (h : Lagging X after removed g d)

include h

theorem newest_page {addr : PartitionAddress} (ha : addr.Encodable) :
    (∀ e ∈ newestPage d.logs addr.encode X, e.1 ∉ removed.map (encode .logs)) ∧
      newestPage g.logs addr.encode X = newestPage d.logs addr.encode X := by
  have hkeep (e : Bytes × Bytes) (he : e ∈ newestPage d.logs addr.encode X) :
      e.1 ∉ removed.map (encode .logs) := by
    intro hin
    obtain ⟨k, hk, hkey⟩ := mem_map.mp hin
    have henc := h.encodable k hk
    have hpre : addr.encode <+: k.encode .logs := by
      have hmem := (mem_filter.mp (mem_reverse.mp (mem_of_mem_take he))).2
      rw [hkey]
      exact isPrefixOf_iff_prefix.mp hmem
    obtain rfl := (prefix_logs_iff ha henc).mp hpre
    exact (h.outside k hk).not_listed henc e he hkey.symm
  refine ⟨hkeep, ?_⟩
  have hcomm : newestPage g.logs addr.encode X = ((((d.logs.below (addr.encode ++ [255])).filter
      fun e => addr.encode.isPrefixOf e.1).reverse).filter
        fun e => decide (e.1 ∉ removed.map (encode .logs))).take X := by
    simp only [newestPage, below, h.logs, filter_filter, filter_reverse]
    congr 2
    refine filter_congr fun e _ => ?_
    rw [Bool.eq_iff_iff]
    simp only [Bool.and_eq_true]
    tauto
  rw [hcomm]
  exact take_filter_eq fun e he => decide_eq_true (hkeep e he)

theorem tags_get {k : Key} (hk : k.Encodable) (hnot : k ∉ removed) :
    g.tags.get (k.encode .tags) = d.tags.get (k.encode .tags) := by
  have hkeep : k.encode .tags ∉ removed.map (encode .tags) := by
    intro hin
    obtain ⟨q, hq, heq⟩ := mem_map.mp hin
    exact hnot (encode_tags_inj (h.encodable q hq) hk heq ▸ hq)
  exact get_of_filter (p := fun b => decide (b ∉ removed.map (encode .tags))) h.tags
    (decide_eq_true hkeep)

theorem logs_get {k : Key} (hk : k.Encodable) (hnot : k ∉ removed) :
    g.logs.get (k.encode .logs) = d.logs.get (k.encode .logs) := by
  have hkeep : k.encode .logs ∉ removed.map (encode .logs) := by
    intro hin
    obtain ⟨q, hq, heq⟩ := mem_map.mp hin
    exact hnot (encode_logs_inj (h.encodable q hq) hk heq ▸ hq)
  exact get_of_filter (p := fun b => decide (b ∉ removed.map (encode .logs))) h.logs
    (decide_eq_true hkeep)

theorem identity_eq {k : Key} (hk : k.Encodable) (hnot : k ∉ removed) : g.identity k = d.identity k := by
  simp only [GroupStorage.identity, toBytes_tags_eq_ok.mpr ⟨hk, rfl⟩, bind, Except.bind,
    GroupStorage.get, GroupStorage.db, h.tags_get hk hnot]

theorem latest_eq (hd : WellLogged d.logs) (addr : PartitionAddress) :
    g.latestIdentities X addr = d.latestIdentities X addr := by
  by_cases ha : addr.Encodable
  · obtain ⟨hkeep, hpage⟩ := h.newest_page ha
    have hkeys : g.keys .logs (some addr.encode) none X true =
        d.keys .logs (some addr.encode) none X true := by
      rw [GroupStorage.keys, GroupStorage.keys, list_newest_eq, list_newest_eq, hpage]
    simp only [GroupStorage.latestIdentities, toBytes_eq_ok.mpr ⟨ha, rfl⟩, bind, Except.bind, hkeys]
    cases hdecode : (d.keys .logs (some addr.encode) none X true).mapM (fromBytes .logs) with
    | error e => rfl
    | ok keys =>
      have hsame : keys.mapM g.identity = keys.mapM d.identity := by
        refine mapM_congr fun k hk => ?_
        obtain ⟨b, hb, hbk⟩ := exists_of_mem_mapM_right hdecode hk
        rw [GroupStorage.keys, list_newest_eq] at hb
        obtain ⟨e, he, rfl⟩ := mem_map.mp hb
        obtain ⟨q, hq, hkey⟩ := hd e (mem_of_newestPage he)
        rw [hkey, fromBytes_logs_encode hq] at hbk
        obtain rfl : q = k := Except.ok.inj hbk
        refine h.identity_eq hq fun hin => hkeep e he ?_
        rw [hkey]
        exact mem_map_of_mem hin
      dsimp only
      rw [hsame]
  · have hfail (s : GroupStorage) : s.latestIdentities X addr = (do
        let pre ← addr.toBytes
        let keys ← (s.keys .logs (some pre) none X true).mapM (fromBytes .logs)
        let identities ← keys.mapM s.identity
        return identities.reduceOption) := rfl
    rw [hfail, hfail]
    cases hbytes : addr.toBytes with
    | error e => rfl
    | ok pre => exact absurd (toBytes_eq_ok.mp hbytes).1 ha

theorem logPage_eq (limit : Nat) : g.logPage after limit = d.logPage after limit := by
  have hlist : g.list .tags none after limit = d.list .tags none after limit := by
    rw [list_tags_eq, list_tags_eq, h.tags, filter_filter]
    congr 1
    refine filter_congr fun e _ => ?_
    rw [Bool.eq_iff_iff, Bool.and_eq_true, decide_eq_true_iff, decide_eq_true_iff]
    refine ⟨fun hin => hin.1, fun hin => ⟨hin, ?_⟩⟩
    intro hremoved
    obtain ⟨k, hk, hkey⟩ := mem_map.mp hremoved
    obtain ⟨b, hb, hle⟩ := h.passed k hk
    rw [hkey] at hle
    exact absurd (hin b hb) (not_lt.mpr hle)
  rw [logPage, logPage, hlist]

theorem not_removed {k : Key} (hk : ∀ b ∈ after, b < k.encode .tags) : k ∉ removed := by
  intro hin
  obtain ⟨b, hb, hle⟩ := h.passed k hin
  exact absurd (hk b hb) (not_lt.mpr hle)

end

theorem plan_eq {p : RetentionPolicy} (h : Lagging p.versions after removed g d)
    (hd : WellLogged d.logs) {keys : List Key}
    (hk : ∀ k ∈ keys, k.Encodable ∧ ∀ b ∈ after, b < k.encode .tags) : p.plan g keys = p.plan d keys := by
  have hnewest : p.newest g keys = p.newest d keys := by
    refine mapM_congr fun addr _ => ?_
    rw [h.latest_eq hd addr]
  simp only [plan, hnewest]
  cases p.newest d keys with
  | error e => rfl
  | ok newest =>
    simp only [bind, Except.bind]
    cases houts : keys.eraseDups.mapM (p.outside newest) with
    | error e => rfl
    | ok outs =>
      have hremovable : (((keys.eraseDups.zip outs).filter Prod.snd).map Prod.fst).eraseDups.mapM
          (removable g) = (((keys.eraseDups.zip outs).filter Prod.snd).map
            Prod.fst).eraseDups.mapM (removable d) := by
        refine mapM_congr fun k hin => ?_
        have hlisted := ((zip_filter_cases houts).1 k (mem_eraseDups.mp hin)).1
        obtain ⟨henc, hafter⟩ := hk k (mem_eraseDups.mp hlisted)
        have hnot := h.not_removed hafter
        rw [removable, removable, read_congr henc (h.logs_get henc hnot) (h.tags_get henc hnot)]
      dsimp only
      rw [hremovable]

theorem extend (h : Lagging X after removed g d) {found : List Key} (hf : ∀ k ∈ found, k.Encodable)
    (hout : ∀ k ∈ found, Outside X d k) {g' : GroupStorage} {last : Bytes}
    (hlast : ∀ b ∈ after, b ≤ last) (hfound : ∀ k ∈ found, k.encode .tags ≤ last)
    (hl : g'.logs = (found.foldl dropVersion g).logs) (ht : g'.tags = (found.foldl dropVersion g).tags) :
    Lagging X (some last) (removed ++ found) g' d where
  encodable k hk := (mem_append.mp hk).elim (h.encodable k) (hf k)
  passed k hk := by
    refine ⟨last, rfl, ?_⟩
    rcases mem_append.mp hk with hk | hk
    · obtain ⟨b, hb, hle⟩ := h.passed k hk
      exact hle.trans (hlast b hb)
    · exact hfound k hk
  outside k hk := (mem_append.mp hk).elim (h.outside k) (hout k)
  logs := by
    rw [hl, entries_foldl_dropVersion.1, h.logs, filter_filter]
    refine filter_congr fun e _ => ?_
    rw [Bool.eq_iff_iff]
    simp only [Bool.and_eq_true, decide_eq_true_iff, map_append, mem_append]
    tauto
  tags := by
    rw [ht, entries_foldl_dropVersion.2, h.tags, filter_filter]
    refine filter_congr fun e _ => ?_
    rw [Bool.eq_iff_iff]
    simp only [Bool.and_eq_true, decide_eq_true_iff, map_append, mem_append]
    tauto

end Lagging

theorem outside_of_plan {p : RetentionPolicy} {g : GroupStorage} {keys : List Key}
    {found : List (Key × Nat)} (h : p.plan g keys = .ok found) : ∀ k ∈ found.map Prod.fst,
    k ∈ keys ∧ Outside p.versions g k := by
  simp only [plan, bind_eq_ok, pure_eq_ok] at h
  obtain ⟨newest, hnewest, outs, houts, read, hread, rfl⟩ := h
  intro k hk
  have hin := mem_eraseDups.mp ((reduceOption_sublist hread).subset hk)
  obtain ⟨hlisted, hout⟩ := (zip_filter_cases houts).1 k hin
  refine ⟨mem_eraseDups.mp hlisted, ?_⟩
  simp only [outside, bind_eq_ok, pure_eq_ok, decide_eq_true_iff] at hout
  obtain ⟨ids, hids, hcount⟩ := hout
  unfold identitiesOf at hids
  split at hids
  · rename_i found hfound
    cases hids
    obtain ⟨addr, _, hpage⟩ := exists_of_mem_mapM_right hnewest (Sequence.mem_of_lookup_eq_some hfound)
    simp only [bind_eq_ok, pure_eq_ok, Prod.mk.injEq] at hpage
    obtain ⟨ids', hids', rfl, rfl⟩ := hpage
    exact ⟨_, hids', hcount⟩
  · cases hids

end Tourillon
