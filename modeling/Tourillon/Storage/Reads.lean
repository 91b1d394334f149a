import Tourillon.Storage.Clean

namespace Tourillon

open Endian Exceptional List OrderedMap

variable {g : GroupStorage} {k : Key}

theorem take_pid_of_prefix {start b : Bytes} (hl : pidSize ≤ start.length)
    (h : start.take pidSize <+: b) : b.take pidSize = start.take pidSize ∧ pidSize ≤ b.length := by
  have hlen : (start.take pidSize).length = pidSize := by
    rw [length_take]
    omega
  have hle := h.length_le
  rw [hlen] at hle
  refine ⟨?_, hle⟩
  rw [prefix_iff_eq_take, hlen] at h
  exact h.symm

def FoundAt (g : GroupStorage) (k : Key) : Option Record → Prop
  | none => k ∉ g.held
  | some r => r.key = k ∧ CleanRecord r ∧ k ∈ g.held

section

variable (h : Sound g)

include h

theorem Sound.mem_held_iff (hk : k.Encodable) : k ∈ g.held ↔ (g.tags.get (k.encode .tags)).isSome := by
  rw [mem_held h.tagKeys, Option.isSome_iff_exists]
  constructor
  · rintro ⟨_, value, hv, _⟩
    exact ⟨value, hv⟩
  · rintro ⟨value, hv⟩
    exact ⟨hk, value, hv, h.owned _ (get_eq_some.mp hv)⟩

theorem Sound.encodable_of_held (hk : k ∈ g.held) :
    k.Encodable := ((mem_held h.tagKeys).mp hk).1

theorem foundAt_recordAt (hk : k.Encodable) {found : Option Record}
    (hr : recordAt k (g.get .tags (k.encode .tags)) (g.get .logs (k.encode .logs)) = .ok found) :
    FoundAt g k found := by
  have hpair := h.paired k hk
  have hheld := h.mem_held_iff hk
  have htags : g.get .tags (k.encode .tags) = g.tags.get (k.encode .tags) := rfl
  have hlogs : g.get .logs (k.encode .logs) = g.logs.get (k.encode .logs) := rfl
  rw [htags, hlogs] at hr
  cases ht : g.tags.get (k.encode .tags) with
  | none =>
    rw [ht] at hr hheld
    cases hr
    simpa [FoundAt] using hheld
  | some tag =>
    rw [ht] at hr hheld hpair
    obtain ⟨log, hl⟩ := Option.isSome_iff_exists.mp (hpair.mp rfl)
    rw [hl] at hr
    simp only [recordAt, bind_eq_ok, pure_eq_ok] at hr
    obtain ⟨t, hdec, v, hv, rfl⟩ := hr
    have howned := h.owned _ (get_eq_some.mp ht)
    refine ⟨rfl, ⟨hk, ?_, Tag.readable_of_fromBytes hdec, Value.quorum_of_fromBytes hv⟩, hheld.mpr rfl⟩
    exact (ownedTagValue_of_fromBytes hdec).symm.trans howned

theorem of_newest {address : PartitionAddress} {r : Record} (hr : g.newest address = .ok (some r)) :
    (r.key.Encodable ∧ r.key.partitionAddress = address) ∧ CleanRecord r ∧
      recordAt r.key (g.get .tags (r.key.encode .tags)) (g.get .logs (r.key.encode .logs)) = .ok (some r) := by
  simp only [GroupStorage.newest, bind_eq_ok, PartitionAddress.toBytes_eq_ok] at hr
  obtain ⟨_, ⟨haddress, rfl⟩, hr⟩ := hr
  split at hr
  · cases hr
  · rename_i kv hlast
    simp only [bind_eq_ok, Key.toBytes_tags_eq_ok] at hr
    obtain ⟨key, hkey, _, ⟨_, rfl⟩, hrecord⟩ := hr
    unfold GroupStorage.last at hlast
    obtain ⟨hmem, hpre⟩ := GroupStorage.mem_list (mem_of_mem_head? hlast)
    obtain ⟨k, hk, hlog⟩ := h.logKeys kv hmem
    rw [hlog, Key.fromBytes_logs_encode hk] at hkey
    obtain rfl : k = key := Except.ok.inj hkey
    have hget : g.get .logs (k.encode .logs) = some kv.2 := get_eq_some.mpr (hlog ▸ hmem)
    rw [← hget] at hrecord
    obtain ⟨rfl, hclean, _⟩ := foundAt_recordAt h hk hrecord
    refine ⟨⟨hk, (Key.prefix_logs_iff haddress hk).mp ?_⟩, hclean, hrecord⟩
    rw [← hlog]
    simpa [GroupStorage.startsWith] using hpre

theorem getMany_found {keys : List Key} {found : List (Option Record)} (hm : g.getMany keys = .ok found) :
    List.Forall₂ (FoundAt g) keys found := by
  simp only [GroupStorage.getMany, bind_eq_ok] at hm
  obtain ⟨refs, hrefs, hfound⟩ := hm
  have hdec (k : Key) (ref : Key × Bytes × Bytes) (hk : (do
      let tag ← k.toBytes .tags
      let log ← k.toBytes .logs
      return (k, tag, log)) = Except.ok ref) :
      k.Encodable ∧ ref = (k, k.encode .tags, k.encode .logs) := by
    simp only [bind_eq_ok, Key.toBytes_tags_eq_ok, Key.toBytes_logs_eq_ok, pure_eq_ok] at hk
    obtain ⟨_, ⟨henc, rfl⟩, _, ⟨_, rfl⟩, rfl⟩ := hk
    exact ⟨henc, rfl⟩
  have henc (k : Key) (hk : k ∈ keys) : k.Encodable := by
    obtain ⟨ref, _, href⟩ := exists_of_mem_mapM hrefs hk
    exact (hdec k ref href).1
  rw [mapM_ok_eq_map (fun k _ ref href => (hdec k ref href).2) hrefs, mapM_eq_ok, forall₂_map_left_iff] at hfound
  refine List.Forall₂.imp ?_ ((forall₂_and_left _ _).mpr ⟨henc, hfound⟩)
  intro k o ho
  exact foundAt_recordAt h ho.1 ho.2

theorem ownedKey_eq_some {e : Bytes × Bytes} (he : e ∈ g.tags.entries) :
    ∃ k ∈ g.held, ownedKey e = some k ∧ e.1 = k.encode .tags := by
  obtain ⟨k, hk, hkey⟩ := h.tagKeys e he
  obtain ⟨t, ht⟩ := h.readable e he
  have howned := h.owned e he
  have hget : g.tags.get (k.encode .tags) = some e.2 := get_eq_some.mpr (hkey ▸ he)
  refine ⟨k, (h.mem_held_iff hk).mpr (by rw [hget]; rfl), ?_, hkey⟩
  rw [ownedTagValue_of_fromBytes ht] at howned
  simp [ownedKey, ht, howned, hkey, Key.fromBytes_tags_encode hk, Except.toOption]

theorem nodup_filterMap_ownedKey {es : List (Bytes × Bytes)} (hsub : ∀ e ∈ es, e ∈ g.tags.entries)
    (hs : es.Pairwise fun a b => a.1 < b.1) : (es.filterMap ownedKey).Nodup := by
  rw [List.Nodup, pairwise_filterMap]
  refine hs.imp_of_mem ?_
  intro a b ha hb hab k hk k' hk' heq
  obtain ⟨q, _, hq, haq⟩ := ownedKey_eq_some h (hsub a ha)
  obtain ⟨q', _, hq', hbq⟩ := ownedKey_eq_some h (hsub b hb)
  rw [hq] at hk
  rw [hq'] at hk'
  cases hk
  cases hk'
  rw [haq, hbq, heq] at hab
  exact lt_irrefl _ hab

end

structure Within (pre start stop : Bytes) (k : Key) : Prop where
  pid : pre <+: k.encode .tags
  above : start < k.encode .tags
  below : k.encode .tags < stop

structure Listing (g : GroupStorage) (start stop : Bytes) (ks : List Key) (cursor : Option Bytes) :
    Prop where
  mem : ∀ k, k ∈ ks ↔ k ∈ g.held ∧ Within (start.take pidSize) start stop k ∧
    ∀ b ∈ cursor, k.encode .tags ≤ b
  last : ∀ b ∈ cursor, ∃ k ∈ ks, k.encode .tags = b
  nodup : ks.Nodup

theorem mem_filterMap_ownedKey (h : Sound g) {es : List (Bytes × Bytes)} (hsub : ∀ e ∈ es, e ∈ g.tags.entries) :
    k ∈ es.filterMap ownedKey ↔ k ∈ g.held ∧ ∃ e ∈ es, e.1 = k.encode .tags := by
  rw [mem_filterMap]
  constructor
  · rintro ⟨e, he, hk⟩
    obtain ⟨q, hheld, hq, heq⟩ := ownedKey_eq_some h (hsub e he)
    rw [hq] at hk
    cases hk
    exact ⟨hheld, e, he, heq⟩
  · rintro ⟨hheld, e, he, heq⟩
    obtain ⟨q, hq, hqe, hqk⟩ := ownedKey_eq_some h (hsub e he)
    obtain rfl : q = k := Key.encode_tags_inj (h.encodable_of_held hq) (h.encodable_of_held hheld)
      (hqk.symm.trans heq)
    exact ⟨e, he, hqe⟩

theorem ownedKeys_listing (h : Sound g) {start stop : Bytes} {limit : Nat} {ks : List Key}
    {cursor : Option Bytes} (hk : g.ownedKeys start stop limit = .ok (ks, cursor)) :
    Listing g start stop ks cursor := by
  rw [GroupStorage.ownedKeys, refuse_eq_ok] at hk
  obtain ⟨hlimit, hk⟩ := hk
  have hpage := g.list_page .tags ( take_prefix pidSize start) (Nat.le_of_not_lt hlimit)
  obtain ⟨page, hp⟩ : ∃ page, page = g.list .tags (some (start.take pidSize)) (some start) limit := ⟨_, rfl⟩
  simp only [← hp] at hk hpage
  rw [hpage.takeWhile_lt stop] at hk
  have hsub : ∀ e ∈ page.filter (fun kv => kv.1 < stop), e ∈ g.tags.entries :=
    fun e he => ((hpage.mem e).mp (mem_of_mem_filter he)).1
  have hentry (k : Key) (hheld : k ∈ g.held) : ∃ e ∈ g.tags.entries, e.1 = k.encode .tags := by
    obtain ⟨_, value, hv, _⟩ := (mem_held h.tagKeys).mp hheld
    exact ⟨_, get_eq_some.mp hv, rfl⟩
  have hmem (k : Key) : k ∈ (page.filter (fun kv => kv.1 < stop)).filterMap ownedKey ↔
      k ∈ g.held ∧ Within (start.take pidSize) start stop k ∧
        ∀ b ∈ GroupStorage.pageCursor page limit, k.encode .tags ≤ b := by
    rw [mem_filterMap_ownedKey h hsub]
    refine and_congr_right fun hheld => ?_
    constructor
    · rintro ⟨e, he, heq⟩
      obtain ⟨hin, hlt⟩ := mem_filter.mp he
      obtain ⟨_, hab, hpre, hcur⟩ := (hpage.mem e).mp hin
      rw [heq] at hab hpre hcur hlt
      exact ⟨⟨hpre, hab, by simpa using hlt⟩, hcur⟩
    · rintro ⟨hw, hcur⟩
      obtain ⟨e, he, heq⟩ := hentry k hheld
      refine ⟨e, mem_filter.mpr ⟨(hpage.mem e).mpr ⟨he, ?_⟩, ?_⟩, heq⟩
      · rw [heq]
        exact ⟨hw.above, hw.pid, hcur⟩
      · rw [heq]
        simpa using hw.below
  have hnodup := nodup_filterMap_ownedKey h hsub (hpage.sorted.filter _)
  by_cases hall : (page.filter (fun kv => kv.1 < stop)).length < page.length
  · rw [if_pos hall] at hk
    cases hk
    obtain ⟨e, he, hge⟩ : ∃ e ∈ page, stop ≤ e.1 := by
      by_contra hno
      simp only [not_exists, not_and, not_le] at hno
      rw [filter_eq_self.mpr (fun e he => by simpa using hno e he)] at hall
      exact lt_irrefl _ hall
    refine ⟨?_, by simp, hnodup⟩
    intro k
    rw [hmem]
    refine and_congr_right fun _ => and_congr_right fun hw => ⟨fun _ => by simp, fun _ b hb => ?_⟩
    exact (hw.below.le.trans hge).trans (((hpage.mem e).mp he).2.2.2 b hb)
  · rw [if_neg hall] at hk
    cases hk
    refine ⟨hmem, ?_, hnodup⟩
    intro b hb
    obtain ⟨e, he, heq⟩ := hpage.last b hb
    have hfull : page.filter (fun kv => kv.1 < stop) = page :=
      filter_sublist.eq_of_length_le (Nat.le_of_not_lt hall)
    obtain ⟨k, hheld, _, hke⟩ := ownedKey_eq_some h ((hpage.mem e).mp he).1
    refine ⟨k, (mem_filterMap_ownedKey h hsub).mpr ⟨hheld, e, ?_, hke⟩, hke.symm.trans heq⟩
    rw [hfull]
    exact he

theorem Sound.ownedVersions_eq (h : Sound g) : g.ownedVersions = g.tags.entries.filterMap ownedKey := by
  refine filterMap_congr ?_
  intro e he
  obtain ⟨k, hheld, hk, hkey⟩ := ownedKey_eq_some h he
  rw [hk, h.owned e he, hkey, Key.fromBytes_tags_encode (h.encodable_of_held hheld)]
  rfl

theorem Sound.nodup_ownedVersions (h : Sound g) : g.ownedVersions.Nodup := by
  rw [h.ownedVersions_eq]
  exact nodup_filterMap_ownedKey h (fun _ he => he) g.tags.sorted

end Tourillon
