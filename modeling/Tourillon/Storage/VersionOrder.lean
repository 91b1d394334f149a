import Tourillon.Library.Utf8
import Tourillon.Storage.KeyOrder
import Tourillon.Storage.Reads

namespace Tourillon

open Endian Exceptional Sequence OrderedMap PartitionAddress Key GroupStorage List HLCTimestamp

variable {g : GroupStorage} {addr : PartitionAddress} {ks : List Key} {k : Key}

theorem encodeUtf8_lt_iff (s t : String) : encodeUtf8 s < encodeUtf8 t ↔ s < t := Utf8.bytes_lt_iff s t

namespace HLCTimestamp

variable {t t' : HLCTimestamp}

def Aligned (t t' : HLCTimestamp) : Prop :=
  t.wallMs = t'.wallMs → t.counter = t'.counter →
    (encodeUtf8 t.nodeId).length < (encodeUtf8 t'.nodeId).length → t.nodeId < t'.nodeId

instance (t t' : HLCTimestamp) : Decidable (Aligned t t') := inferInstanceAs (Decidable (_ → _ → _ → _))

theorem lt_iff (t t' : HLCTimestamp) : t < t' ↔ t.wallMs < t'.wallMs ∨ t.wallMs = t'.wallMs ∧
      (t.counter < t'.counter ∨ t.counter = t'.counter ∧ t.nodeId < t'.nodeId) := by
  change rank t < rank t' ↔ _
  rw [rank, rank, Prod.Lex.toLex_lt_toLex, Prod.Lex.toLex_lt_toLex]

theorem encode_lt_cases (h : t.Encodable) (h' : t'.Encodable) :
    t.encode < t'.encode ↔ t.wallMs < t'.wallMs ∨ t.wallMs = t'.wallMs ∧
      (t.counter < t'.counter ∨ t.counter = t'.counter ∧
        ((encodeUtf8 t.nodeId).length < (encodeUtf8 t'.nodeId).length ∨
          (encodeUtf8 t.nodeId).length = (encodeUtf8 t'.nodeId).length ∧ t.nodeId < t'.nodeId)) := by
  rw [encode, encode, toBE_append_lt_iff h.1 h'.1, toBE_append_lt_iff h.2 h'.2,
    toBE_append_lt_iff t.nodeId_length_lt t'.nodeId_length_lt, encodeUtf8_lt_iff]

theorem encode_lt_iff (h : t.Encodable) (h' : t'.Encodable) :
    (t.encode < t'.encode ↔ t < t') ↔ Aligned t t' ∧ Aligned t' t := by
  rw [encode_lt_cases h h', lt_iff, Aligned, Aligned]
  by_cases hs : t.wallMs = t'.wallMs ∧ t.counter = t'.counter
  · simp only [hs.1, hs.2, lt_irrefl, false_or, true_and, forall_true_left]
    rcases lt_trichotomy (encodeUtf8 t.nodeId).length (encodeUtf8 t'.nodeId).length with hlt | heq | hgt
    · simp [hlt, hlt.not_gt]
    · simp [heq]
    · have hne : t'.nodeId ≠ t.nodeId := fun heq => hgt.ne (by rw [heq])
      have hiff : ¬ t.nodeId < t'.nodeId ↔ t'.nodeId < t.nodeId := not_lt.trans hne.le_iff_lt
      simp only [hgt, hgt.not_gt, hgt.ne', false_and, or_false, false_iff, IsEmpty.forall_iff, true_and,
        forall_const, hiff]
  · omega

theorem encode_head_lt (h : t.wallMs < 255 * 256 ^ 7) (rest : Bytes) : t.encode < 255 :: rest := by
  have hbyte : (UInt8.ofNat (t.wallMs / 256 ^ 7)).toNat = t.wallMs / 256 ^ 7 :=
    toNat_leading (lt_of_lt_of_le h (by decide))
  have hdiv : t.wallMs / 256 ^ 7 < 255 := Nat.div_lt_of_lt_mul (by omega)
  rw [encode, toBE, cons_append, cons_lt_cons_iff, UInt8.lt_iff_toNat_lt, hbyte]
  exact .inl hdiv

theorem not_encode_lt (h : 255 * 256 ^ 7 ≤ t.wallMs) (henc : t.Encodable) : ¬ t.encode < [255] := by
  have hbyte : (UInt8.ofNat (t.wallMs / 256 ^ 7)).toNat = t.wallMs / 256 ^ 7 := toNat_leading henc.1
  have hdiv : 255 ≤ t.wallMs / 256 ^ 7 := (Nat.le_div_iff_mul_le (by decide)).mpr h
  rw [encode, toBE, cons_append, cons_lt_cons_iff, UInt8.lt_iff_toNat_lt, hbyte]
  rintro (hlt | ⟨_, hnil⟩)
  · exact absurd hlt (Nat.not_lt.mpr hdiv)
  · cases hnil

end HLCTimestamp

namespace GroupStorage

variable {pre : Bytes}

def versionsOf (g : GroupStorage) (addr : PartitionAddress) : Finset Key :=
  g.held.filter fun k => k.partitionAddress = addr

def withPrefix (d : Db) (pre : Bytes) : List (Bytes × Bytes) := d.entries.filter fun e => pre <+: e.1

theorem list_reverse_eq (g : GroupStorage) (ks : Keyspace) (limit : Nat)
    (h : ∀ e ∈ withPrefix (g.db ks) pre, e.1 < pre ++ [255]) :
    g.list ks (some pre) none limit true = (withPrefix (g.db ks) pre).reverse.take limit := by
  have hsorted : ((g.db ks).below (pre ++ [255])).reverse.Pairwise
      (fun a b => startsWith (some pre) b.1 → startsWith (some pre) a.1) := by
    rw [pairwise_reverse]
    refine ((g.db ks).sorted.filter _).imp_of_mem ?_
    intro a b ha hb hab hp
    simp only [startsWith, isPrefixOf_iff_prefix] at hp ⊢
    exact prefix_of_between hp (prefix_append pre [255]) hab.le
      (mem_below.mp hb).2.le
  show (((g.db ks).below (pre ++ [255])).reverse.takeWhile _).take limit = _
  rw [takeWhile_eq_filter hsorted, filter_reverse, below, filter_filter, withPrefix]
  congr 2
  refine filter_congr ?_
  intro e he
  have hbelow := h e
  simp only [withPrefix, mem_filter, he, true_and, decide_eq_true_iff] at hbelow
  rw [Bool.eq_iff_iff]
  simpa [startsWith] using hbelow

theorem last_eq (g : GroupStorage) (ks : Keyspace) (h : ∀ e ∈ withPrefix (g.db ks) pre, e.1 < pre ++ [255]) :
    g.last ks pre = (withPrefix (g.db ks) pre).getLast? := by
  rw [last, list_reverse_eq g ks 1 h, head?_take, if_neg (by decide), head?_reverse]

theorem last_lt {ks : Keyspace} {e : Bytes × Bytes} (h : g.last ks pre = some e) : e.1 < pre ++ [255] := by
  have hin : e ∈ ((g.db ks).below (pre ++ [255])).reverse :=
    (takeWhile_sublist _).mem (mem_of_mem_take (mem_of_mem_head? h))
  exact (mem_below.mp (mem_reverse.mp hin)).2

theorem mem_versionsOf {k : Key} :
    k ∈ g.versionsOf addr ↔ k ∈ g.held ∧ k.partitionAddress = addr := Finset.mem_filter

end GroupStorage

structure Logged (g : GroupStorage) (addr : PartitionAddress) (ks : List Key) : Prop where
  keys : (withPrefix g.logs addr.encode).map Prod.fst = ks.map (encode .logs)
  mem : ∀ k, k ∈ ks ↔ k ∈ g.versionsOf addr
  ascending : ks.Pairwise fun a b => a.ts.encode < b.ts.encode

theorem exists_logged (hg : Sound g) (ha : addr.Encodable) : ∃ ks, Logged g addr ks := by
  have hdecoded (b : Bytes) (hb : b ∈ (withPrefix g.logs addr.encode).map Prod.fst) :
      ∃ k : Key, (k.Encodable ∧ k.partitionAddress = addr) ∧ b = k.encode .logs := by
    obtain ⟨e, he, rfl⟩ := mem_map.mp hb
    obtain ⟨hmem, hpre⟩ := mem_filter.mp he
    obtain ⟨k, hk, hkey⟩ := hg.logKeys e hmem
    rw [decide_eq_true_iff, hkey, prefix_logs_iff ha hk] at hpre
    exact ⟨k, ⟨hk, hpre⟩, hkey⟩
  obtain ⟨ks, hks, hall⟩ := exists_eq_map hdecoded
  refine ⟨ks, hks, ?_, ?_⟩
  · intro k
    rw [mem_versionsOf]
    constructor
    · intro hk
      obtain ⟨henc, haddr⟩ := hall k hk
      have hb : k.encode .logs ∈ ks.map (encode .logs) := mem_map_of_mem hk
      rw [← hks] at hb
      obtain ⟨e, he, hkey⟩ := mem_map.mp hb
      have hlog : g.logs.get (k.encode .logs) = some e.2 := get_eq_some.mpr (hkey ▸ (mem_filter.mp he).1)
      refine ⟨(hg.mem_held_iff henc).mpr ((hg.paired k henc).mpr ?_), haddr⟩
      rw [hlog]
      rfl
    · rintro ⟨hheld, rfl⟩
      have henc := hg.encodable_of_held hheld
      have hlog := (hg.paired k henc).mp ((hg.mem_held_iff henc).mp hheld)
      obtain ⟨v, hv⟩ := Option.isSome_iff_exists.mp hlog
      have hb : k.encode .logs ∈
          (withPrefix g.logs k.partitionAddress.encode).map Prod.fst := by
        refine mem_map.mpr ⟨_, mem_filter.mpr ⟨get_eq_some.mp hv, ?_⟩, rfl⟩
        rw [decide_eq_true_iff]
        exact (prefix_logs_iff ha henc).mpr rfl
      rw [hks] at hb
      obtain ⟨k', hk', heq⟩ := mem_map.mp hb
      rwa [← encode_logs_inj (hall k' hk').1 henc heq]
  · have hsorted : (ks.map (encode .logs)).Pairwise (· < ·) := by
      rw [← hks, pairwise_map]
      exact g.logs.sorted.filter _
    refine (pairwise_map.mp hsorted).imp_of_mem ?_
    intro a b ha' hb' hab
    rw [encode_logs_eq, encode_logs_eq, (hall a ha').2, (hall b hb').2, append_lt_append_iff rfl] at hab
    exact (hab.resolve_left (lt_irrefl _)).2

structure Ordered (g : GroupStorage) (addr : PartitionAddress) : Prop where
  aligned : ∀ k ∈ g.versionsOf addr, ∀ k' ∈ g.versionsOf addr, k.ts.Aligned k'.ts
  below : ∀ k ∈ g.versionsOf addr, k.ts.wallMs < 255 * 256 ^ 7

theorem seek_below (hg : Sound g) (ha : addr.Encodable)
    (hbelow : ∀ k ∈ g.versionsOf addr, k.ts.wallMs < 255 * 256 ^ 7) :
    ∀ e ∈ withPrefix g.logs addr.encode, e.1 < addr.encode ++ [255] := by
  intro e he
  obtain ⟨ks, hks⟩ := exists_logged hg ha
  have hb : e.1 ∈ ks.map (encode .logs) := by
    rw [← hks.keys]
    exact mem_map_of_mem he
  obtain ⟨k, hk, hkey⟩ := mem_map.mp hb
  have hv := (hks.mem k).mp hk
  rw [← hkey, encode_logs_eq, (mem_versionsOf.mp hv).2, append_lt_append_iff rfl]
  exact .inr ⟨rfl, encode_head_lt (hbelow k hv) []⟩

theorem below_of_last (hg : Sound g) (ha : addr.Encodable)
    (h : g.last .logs addr.encode = (withPrefix g.logs addr.encode).getLast?) :
    ∀ k ∈ g.versionsOf addr, k.ts.wallMs < 255 * 256 ^ 7 := by
  intro k hk
  by_contra hge
  obtain ⟨ks, hks⟩ := exists_logged hg ha
  have hlisted : k.encode .logs ∈ (withPrefix g.logs addr.encode).map Prod.fst := by
    rw [hks.keys]
    exact mem_map_of_mem ((hks.mem k).mpr hk)
  obtain ⟨e, he, hkey⟩ := mem_map.mp hlisted
  obtain ⟨hheld, haddr⟩ := mem_versionsOf.mp hk
  have hbeyond : ¬ e.1 < addr.encode ++ [255] := by
    rw [hkey, encode_logs_eq, haddr, append_lt_append_iff rfl]
    rintro (hlt | ⟨_, hlt⟩)
    · exact lt_irrefl _ hlt
    · exact not_encode_lt (not_lt.mp hge) (hg.encodable_of_held hheld).2.2 hlt
  cases hlast : (withPrefix g.logs addr.encode).getLast? with
  | none =>
    rw [getLast?_eq_none_iff.mp hlast] at he
    cases he
  | some last =>
    rw [hlast] at h
    obtain ⟨before, hbefore⟩ := getLast?_eq_some_iff.mp hlast
    have hsorted : (withPrefix g.logs addr.encode).Pairwise fun a b => a.1 < b.1 := g.logs.sorted.filter _
    have hle : e.1 ≤ last.1 := by
      rw [hbefore] at he hsorted
      rcases mem_append.mp he with hin | hin
      · exact ((pairwise_append.mp hsorted).2.2 e hin last (by simp)).le
      · rw [mem_singleton.mp hin]
    exact hbeyond (lt_of_le_of_lt hle (last_lt h))

theorem Ordered.ascending (hg : Sound g) (ho : Ordered g addr) (hks : Logged g addr ks) :
    ks.Pairwise fun a b => a.ts < b.ts := by
  refine hks.ascending.imp_of_mem ?_
  intro a b ha hb hab
  have hva := (hks.mem a).mp ha
  have hvb := (hks.mem b).mp hb
  have henc {k : Key} (hk : k ∈ g.versionsOf addr) : k.ts.Encodable :=
    (hg.encodable_of_held (mem_versionsOf.mp hk).1).2.2
  exact ((encode_lt_iff (henc hva) (henc hvb)).mpr ⟨ho.aligned a hva b hvb, ho.aligned b hvb a hva⟩).mp hab

def Elected (g : GroupStorage) (addr : PartitionAddress) : Option Record → Prop
  | none => g.versionsOf addr = ∅
  | some r => r.key ∈ g.versionsOf addr ∧ g.read r.key = .ok (some r) ∧
      ∀ k ∈ g.versionsOf addr, k.ts ≤ r.key.ts

structure LatestPage (g : GroupStorage) (addr : PartitionAddress) (limit : Nat)
    (identities : List KeyTag) : Prop where
  held : ∀ i ∈ identities, i.key ∈ g.versionsOf addr
  length : identities.length = min limit (g.versionsOf addr).card
  descending : identities.Pairwise fun a b => b.key.ts < a.key.ts
  greatest : ∀ i ∈ identities, ∀ k ∈ g.versionsOf addr, (∀ j ∈ identities, j.key ≠ k) →
    k.ts < i.key.ts

theorem recordAt_stored (hg : Sound g) (hk : k ∈ g.held) {log : Bytes}
    (hlog : g.logs.get (k.encode .logs) = some log) :
    ∃ r : Record, recordAt k (g.get .tags (k.encode .tags)) (some log) = .ok (some r) ∧
      r.key = k ∧ g.read k = .ok (some r) := by
  obtain ⟨henc, raw, hraw, _⟩ := (mem_held hg.tagKeys).mp hk
  obtain ⟨tag, htag⟩ := hg.readable _ (get_eq_some.mp hraw)
  obtain ⟨value, hvalue⟩ := hg.valued _ (get_eq_some.mp hlog)
  have hrecord : recordAt k (g.get .tags (k.encode .tags)) (some log) =
      .ok (some ⟨⟨k, tag⟩, value⟩) := by
    have hget : g.get .tags (k.encode .tags) = some raw := hraw
    rw [hget]
    simp only [recordAt, htag, hvalue]
    rfl
  have hget : g.get .logs (k.encode .logs) = some log := hlog
  exact ⟨_, hrecord, rfl, read_eq_ok.mpr ⟨henc, by rw [hget, hrecord]⟩⟩

theorem Logged.last_cases (hks : Logged g addr ks)
    (hseek : ∀ e ∈ withPrefix g.logs addr.encode, e.1 < addr.encode ++ [255]) :
    (g.last .logs addr.encode = none ∧ ks = []) ∨ ∃ before k log, ks = before ++ [k] ∧
      g.last .logs addr.encode = some (k.encode .logs, log) ∧ g.logs.get (k.encode .logs) = some log := by
  have hlast : g.last .logs addr.encode = (withPrefix g.logs addr.encode).getLast? := g.last_eq .logs hseek
  have hkeys := hks.keys
  rw [hlast]
  cases hcase : (withPrefix g.logs addr.encode).getLast? with
  | none =>
    rw [getLast?_eq_none_iff.mp hcase, map_nil] at hkeys
    exact .inl ⟨rfl, map_eq_nil_iff.mp hkeys.symm⟩
  | some e =>
    obtain ⟨es, hes⟩ := getLast?_eq_some_iff.mp hcase
    rw [hes, map_append, map_singleton] at hkeys
    obtain ⟨before, rest, hsplit, _, hrest⟩ := map_eq_append_iff.mp hkeys.symm
    obtain ⟨k, after, rfl, hkey, hafter⟩ := map_eq_cons_iff.mp hrest
    obtain rfl : after = [] := map_eq_nil_iff.mp hafter
    have hentry : e ∈ withPrefix g.logs addr.encode := by
      rw [hes]
      simp
    have hpair : e = (k.encode .logs, e.2) := by rw [hkey]
    refine .inr ⟨before, k, e.2, hsplit, congrArg some hpair, ?_⟩
    apply get_eq_some.mpr
    rw [← hpair]
    exact (mem_filter.mp hentry).1

section

variable (hg : Sound g)

include hg

theorem newest_elected (ha : addr.Encodable) (ho : Ordered g addr) :
    ∃ found, g.newest addr = .ok found ∧ Elected g addr found := by
  obtain ⟨ks, hks⟩ := exists_logged hg ha
  rcases hks.last_cases (seek_below hg ha ho.below) with ⟨hlast, rfl⟩ | ⟨before, k, log, rfl, hlast, hlog⟩
  · refine ⟨none, ?_, ?_⟩
    · simp only [GroupStorage.newest, toBytes_eq_ok.mpr ⟨ha, rfl⟩, bind, Except.bind, hlast]
    · refine Finset.eq_empty_of_forall_notMem ?_
      intro k hk
      cases (hks.mem k).mpr hk
  · have hk : k ∈ g.versionsOf addr := (hks.mem k).mp (by simp)
    have hheld := (GroupStorage.mem_versionsOf.mp hk).1
    have henc := hg.encodable_of_held hheld
    obtain ⟨r, hrecord, rfl, hread⟩ := recordAt_stored hg hheld hlog
    refine ⟨some r, ?_, hk, hread, ?_⟩
    · simp only [GroupStorage.newest, toBytes_eq_ok.mpr ⟨ha, rfl⟩, bind, Except.bind,
        hlast, fromBytes_logs_encode henc, toBytes_tags_eq_ok.mpr ⟨henc, rfl⟩]
      exact hrecord
    · intro k' hk'
      have hasc := List.pairwise_append.mp (ho.ascending hg hks)
      rcases List.mem_append.mp ((hks.mem k').mpr hk') with hin | hin
      · exact (hasc.2.2 k' hin r.key (by simp)).le
      · rw [List.mem_singleton.mp hin]

theorem identity_stored (hk : k ∈ g.held) : ∃ i : KeyTag, g.identity k = .ok (some i) ∧ i.key = k := by
  obtain ⟨henc, raw, hraw, howned⟩ := (mem_held hg.tagKeys).mp hk
  obtain ⟨tag, htag⟩ := hg.readable _ (get_eq_some.mp hraw)
  rw [ownedTagValue_of_fromBytes htag] at howned
  have hget : g.get .tags (k.encode .tags) = some raw := hraw
  refine ⟨⟨k, tag⟩, ?_, rfl⟩
  simp only [identity, toBytes_tags_eq_ok.mpr ⟨henc, rfl⟩, bind, Except.bind, hget, htag, howned, if_true]
  rfl

theorem identities_stored (hk : ∀ k ∈ ks, k ∈ g.held) :
    ∃ ids : List KeyTag, ks.mapM g.identity = .ok (ids.map some) ∧ ids.map (fun i => i.key) = ks := by
  induction ks with
  | nil => exact ⟨[], rfl, rfl⟩
  | cons k ks ih =>
    obtain ⟨i, hi, rfl⟩ := identity_stored hg (hk k (by simp))
    obtain ⟨ids, hids, rfl⟩ := ih fun k' hk' => hk k' (by simp [hk'])
    refine ⟨i :: ids, ?_, rfl⟩
    rw [mapM_cons, hi, hids]
    rfl

theorem latestIdentities_listed (ha : addr.Encodable) (hks : Logged g addr ks)
    (hseek : ∀ e ∈ withPrefix g.logs addr.encode, e.1 < addr.encode ++ [255]) (limit : Nat) :
    ∃ ids, g.latestIdentities limit addr = .ok ids ∧ ids.map (fun i => i.key) = ks.reverse.take limit := by
  have hkeys : g.keys .logs (some addr.encode) none limit true =
      (ks.reverse.take limit).map (encode .logs) := by
    rw [GroupStorage.keys, g.list_reverse_eq .logs limit hseek, map_take, map_reverse, map_take, map_reverse]
    exact congrArg (fun l => l.reverse.take limit) hks.keys
  have hheld (k : Key) (hk : k ∈ ks.reverse.take limit) : k ∈ g.held :=
    (GroupStorage.mem_versionsOf.mp ((hks.mem k).mp (mem_reverse.mp (mem_of_mem_take hk)))).1
  obtain ⟨ids, hids, hmap⟩ := identities_stored hg hheld
  have hdecode : ((ks.reverse.take limit).map (encode .logs)).mapM (fromBytes .logs) =
      .ok (ks.reverse.take limit) := by
    have hround (k : Key) (hk : k ∈ ks.reverse.take limit) :
        (fromBytes .logs ∘ encode .logs) k = .ok (id k) :=
      fromBytes_logs_encode (hg.encodable_of_held (hheld k hk))
    rw [mapM_map, mapM_ok_of_forall hround, map_id]
  refine ⟨ids, ?_, hmap⟩
  simp only [GroupStorage.latestIdentities, toBytes_eq_ok.mpr ⟨ha, rfl⟩, bind,
    Except.bind, hkeys, hdecode, hids, pure, Except.pure, reduceOption, filterMap_map]
  simp

theorem latestIdentities_latest (ha : addr.Encodable) (ho : Ordered g addr) (limit : Nat) :
    ∃ ids, g.latestIdentities limit addr = .ok ids ∧ LatestPage g addr limit ids := by
  obtain ⟨ks, hks⟩ := exists_logged hg ha
  obtain ⟨ids, hids, hmap⟩ := latestIdentities_listed hg ha hks (seek_below hg ha ho.below) limit
  have hsorted := ho.ascending hg hks
  have hdesc : ks.reverse.Pairwise fun a b => b.ts < a.ts := pairwise_reverse.mpr hsorted
  have hcard : ks.length = (g.versionsOf addr).card := by
    have hnodup : ks.Nodup := hsorted.imp fun h heq => absurd h (by rw [heq]; exact lt_irrefl _)
    rw [← toFinset_card_of_nodup hnodup]
    congr 1
    ext k
    rw [mem_toFinset, hks.mem]
  refine ⟨ids, hids, ?_, ?_, ?_, ?_⟩
  · intro i hi
    refine (hks.mem _).mp (mem_reverse.mp (mem_of_mem_take (i := limit) ?_))
    rw [← hmap]
    exact mem_map_of_mem hi
  · rw [← hcard, ← length_map (f := fun i : KeyTag => i.key), hmap, length_take, length_reverse]
  · have htake := hdesc.sublist (take_sublist limit _)
    rw [← hmap] at htake
    exact pairwise_map.mp htake
  · intro i hi k hk hnot
    have hmem : k ∈ ks.reverse := mem_reverse.mpr ((hks.mem k).mpr hk)
    rw [← take_append_drop limit ks.reverse] at hmem hdesc
    rcases mem_append.mp hmem with htake | hdrop
    · rw [← hmap] at htake
      obtain ⟨j, hj, heq⟩ := mem_map.mp htake
      exact absurd heq (hnot j hj)
    · refine (pairwise_append.mp hdesc).2.2 i.key ?_ k hdrop
      rw [← hmap]
      exact mem_map_of_mem hi

theorem aligned_of_pages (ha : addr.Encodable)
    (hseek : ∀ e ∈ withPrefix g.logs addr.encode, e.1 < addr.encode ++ [255])
    (hpages : ∀ limit, ∃ ids, g.latestIdentities limit addr = .ok ids ∧ LatestPage g addr limit ids) :
    ∀ k ∈ g.versionsOf addr, ∀ k' ∈ g.versionsOf addr, k.ts.Aligned k'.ts := by
  obtain ⟨ks, hks⟩ := exists_logged hg ha
  obtain ⟨ids, hids, hpage⟩ := hpages ks.length
  obtain ⟨ids', hids', hmap⟩ := latestIdentities_listed hg ha hks hseek ks.length
  obtain rfl : ids = ids' := Except.ok.inj (hids.symm.trans hids')
  have hsorted : ks.Pairwise fun a b => a.ts < b.ts := by
    rw [← pairwise_reverse, ← take_of_length_le (l := ks.reverse) (by rw [length_reverse]), ← hmap,
      pairwise_map]
    exact hpage.descending
  have hpairs := (hks.ascending.and hsorted).imp_of_mem (S := fun a b => a.ts.Aligned b.ts ∧ b.ts.Aligned a.ts)
    fun ha hb hab => by
      have henc {k : Key} (hk : k ∈ ks) : k.ts.Encodable :=
        (hg.encodable_of_held (mem_versionsOf.mp ((hks.mem k).mp hk)).1).2.2
      exact (encode_lt_iff (henc ha) (henc hb)).mp (iff_of_true hab.1 hab.2)
  intro k hk k' hk'
  rcases eq_or_ne k k' with rfl | hne
  · exact fun _ _ h => absurd h (lt_irrefl _)
  · have : Std.Symm fun a b : Key => a.ts.Aligned b.ts ∧ b.ts.Aligned a.ts := ⟨fun _ _ => And.symm⟩
    exact (hpairs.forall ((hks.mem k).mpr hk) ((hks.mem k').mpr hk') hne).1

end

namespace Sample

def stamped (ts : HLCTimestamp) : Record := ⟨⟨⟨0, ⟨[1], [2]⟩, ts⟩, ⟨.live, {}⟩⟩, ⟨[3], 1, size_three⟩⟩

def storing (stamps : List HLCTimestamp) : GroupStorage := (stamps.map stamped).foldl addVersion .empty

theorem storing_sound {stamps : List HLCTimestamp} (h : ∀ ts ∈ stamps, ts.Encodable) : Sound (storing stamps) := by
  refine sound_empty.addVersions ?_
  intro r hr
  obtain ⟨ts, hts, rfl⟩ := mem_map.mp hr
  exact ⟨⟨show (0 : Nat) < _ by decide, show Address.Encodable ⟨[1], [2]⟩ by decide, h ts hts⟩, rfl,
    fun _ => rfl, show (1 : Nat) < 256 by decide⟩

def shortId : HLCTimestamp := ⟨5, 0, "b", size_b⟩

def longId : HLCTimestamp := ⟨5, 0, "aa", by decide⟩

def farFuture : HLCTimestamp := ⟨255 * 256 ^ 7, 0, "a", size_a⟩

def longerAbove : HLCTimestamp := ⟨5, 0, "bb", by decide⟩

end Sample

end Tourillon
