import Tourillon.Library.Paging
import Tourillon.Storage.CellReads
import Tourillon.Storage.Pages
import Tourillon.Storage.RangeScan

namespace Tourillon

open Endian Exceptional Paging GroupStorage

def PrunedIn (ks : Keyspace) (b : Bytes) (g g' : GroupStorage) : Prop := Pruned b (g.db ks) (g'.db ks)

theorem prefix_le {pre b : Bytes} (h : pre <+: b) : pre ≤ b := by
  obtain ⟨rest, rfl⟩ := h
  cases rest with
  | nil => rw [List.append_nil]
  | cons c rest => exact (self_lt_append (by simp)).le

section Obligations

def obligationEntry (kv : Bytes × Bytes) : Option ObligationKey := (ObligationKey.fromBytes kv.1).toOption

def GroupStorage.obligationEntries (g : GroupStorage) : List (Bytes × Bytes) :=
  g.metadata.entries.filter fun e => obligationPrefix <+: e.1

def GroupStorage.markedEntries (g : GroupStorage) : List (Bytes × Bytes) :=
  g.metadata.entries.filter fun e => obligationPrefix < e.1 ∧ obligationPrefix <+: e.1

theorem markedEntries_decoded (g : GroupStorage) :
    g.obligationEntries.filterMap obligationEntry = g.markedEntries.filterMap obligationEntry := by
  rw [obligationEntries, markedEntries, List.filterMap_filter, List.filterMap_filter]
  refine List.filterMap_congr ?_
  intro e _
  by_cases hpre : obligationPrefix <+: e.1
  · rcases (prefix_le hpre).eq_or_lt with heq | hlt
    · have hnone : obligationEntry e = none := by
        rw [obligationEntry, ← heq]
        rfl
      simp [hnone]
    · simp [hpre, hlt]
  · simp [hpre]

theorem catalogue_obligationPage {limit : Nat} (hl : 1 ≤ limit) :
    Catalogue Prod.fst limit (fun g c => obligationPage g c limit) (PrunedIn .metadata)
      (fun _ => True) (fun b => obligationPrefix <+: b) markedEntries obligationEntry where
  sorted g _ := g.metadata.sorted.filter _
  fits g _ e he := (decide_eq_true_iff.mp (List.mem_filter.mp he).2).2
  paged g c _ hfits := by
    have hlist : g.list .metadata (some obligationPrefix) c limit =
        (after Prod.fst c g.markedEntries).take limit := by
      cases c with
      | none =>
        rw [after_none, list_prefix_eq, g.list_forward_eq .metadata limit (List.prefix_refl _)]
        rfl
      | some b =>
        have hb : obligationPrefix <+: b := hfits b rfl
        rw [g.list_forward_eq .metadata limit hb, after, markedEntries, List.filter_filter]
        congr 1
        refine List.filter_congr ?_
        intro e _
        have habove : b < e.1 → obligationPrefix < e.1 := (prefix_le hb).trans_lt
        simp only [Option.mem_def, Option.some.injEq, forall_eq', ← Bool.decide_and, decide_eq_decide]
        exact ⟨fun h => ⟨h.1, habove h.1, h.2⟩, fun h => ⟨h.1, h.2.2⟩⟩
    rw [obligationPage, if_neg (Nat.not_lt.mpr hl), hlist]
    rfl
  trimmed b g g' _ _ htrim := ⟨trivial, Pruned.after_eq htrim _⟩

end Obligations

section Logs

variable {g : GroupStorage}

def GroupStorage.logScan (g : GroupStorage) (after : Option Bytes) (limit : Nat) :
    Except PyError (List Key × Option Bytes) := do
  let keys ← g.logPage after limit
  if keys.length < limit then return (keys, none)
  else match keys.getLast? with
    | none => .error .indexError
    | some key => do
      let next ← key.toBytes .tags
      return (keys, some next)

def tagEntry (kv : Bytes × Bytes) : Option Key := (Key.fromBytes .tags kv.1).toOption

theorem tagEntry_eq (hg : WellKeyed g.tags) {e : Bytes × Bytes} (he : e ∈ g.tags.entries) :
    ∃ k : Key, k.Encodable ∧ Key.fromBytes .tags e.1 = .ok k ∧ tagEntry e = some k ∧ k.encode .tags = e.1 := by
  obtain ⟨k, hk, hkey⟩ := hg e he
  have hread : Key.fromBytes .tags e.1 = .ok k := by rw [hkey, Key.fromBytes_tags_encode hk]
  refine ⟨k, hk, hread, ?_, hkey.symm⟩
  rw [tagEntry, hread]
  rfl

theorem logPage_eq (hg : WellKeyed g.tags) (c : Option Bytes) (limit : Nat) :
    g.logPage c limit = .ok (((after Prod.fst c g.tags.entries).take limit).filterMap tagEntry) := by
  have hlist : g.list .tags none c limit = (after Prod.fst c g.tags.entries).take limit := by
    rw [list_tags_eq, after]
    congr 1
    refine List.filter_congr ?_
    intro e _
    rw [decide_eq_decide]
  rw [logPage, hlist]
  refine mapM_eq_filterMap ?_
  intro e he
  obtain ⟨k, _, hread, _⟩ := tagEntry_eq hg (mem_after.mp (List.mem_of_mem_take he)).1
  exact ⟨k, hread⟩

theorem encode_tagEntries (hg : WellKeyed g.tags) {es : List (Bytes × Bytes)} (h : ∀ e ∈ es, e ∈ g.tags.entries) :
    (es.filterMap tagEntry).map (Key.encode .tags) = es.map Prod.fst := by
  induction es with
  | nil => rfl
  | cons e es ih =>
    obtain ⟨k, _, _, hentry, hkey⟩ := tagEntry_eq hg (h e List.mem_cons_self)
    rw [List.filterMap_cons_some hentry, List.map_cons, List.map_cons, hkey,
      ih fun x hx => h x (List.mem_cons_of_mem _ hx)]

theorem catalogue_logScan {limit : Nat} (hl : 1 ≤ limit) :
    Catalogue Prod.fst limit (fun g c => logScan g c limit) (PrunedIn .tags)
      (fun g => WellKeyed g.tags) (fun _ => True) (fun g => g.tags.entries) tagEntry where
  sorted g _ := g.tags.sorted
  fits _ _ _ _ := trivial
  paged g c hg _ := by
    obtain ⟨page, hpage⟩ : ∃ page, page = (after Prod.fst c g.tags.entries).take limit := ⟨_, rfl⟩
    have hin (e : Bytes × Bytes) (he : e ∈ page) : e ∈ g.tags.entries :=
      (mem_after.mp (List.mem_of_mem_take (hpage ▸ he))).1
    have hkeys := encode_tagEntries hg hin
    have hlen : (page.filterMap tagEntry).length = page.length := by simpa using congrArg List.length hkeys
    have hshort : page.length ≤ limit := by
      rw [hpage]
      exact List.length_take_le ..
    rw [logScan, logPage_eq hg, cut, ← hpage]
    show (if (page.filterMap tagEntry).length < limit then _ else _) = _
    rw [hlen]
    by_cases hfull : page.length = limit
    · have hne : page ≠ [] := List.ne_nil_of_length_pos (by omega)
      obtain ⟨e, hlast⟩ := Option.isSome_iff_exists.mp (List.getLast?_isSome.mpr hne)
      obtain ⟨before, hsplit⟩ := List.getLast?_eq_some_iff.mp hlast
      obtain ⟨k, hk, _, hentry, hkey⟩ := tagEntry_eq hg (hin e (List.mem_of_getLast? hlast))
      have hlastKey : (page.filterMap tagEntry).getLast? = some k := by
        rw [hsplit, List.filterMap_append, List.filterMap_cons_some hentry]
        simp
      rw [if_neg (by omega), if_pos hfull, hlastKey, hlast]
      simp only [Key.toBytes_tags_eq_ok.mpr ⟨hk, rfl⟩, bind, Except.bind, hkey]
      rfl
    · rw [if_pos (by omega), if_neg hfull]
      rfl
  trimmed b g g' hg _ htrim := by
    refine ⟨fun e he => hg e (htrim.deleted e he), ?_⟩
    have hkept := htrim.after_eq fun _ => true
    rwa [List.filter_true, List.filter_true] at hkept

end Logs

section Ranges

theorem exact_ownedKeys {start stop : Bytes} (hlen : pidSize ≤ start.length)
    (hstop : start.take pidSize <+: stop) {limit : Nat} (hl : 1 ≤ limit) :
    Exact (fun g c => ownedKeys g (c.getD start) stop limit) (PrunedIn .tags)
      (fun _ c => start.take pidSize <+: c.getD start)
      (fun g c => (g.between (c.getD start) stop).filterMap ownedKey)
      (fun g c => (g.between (c.getD start) stop).length) where
  turn := by
    intro g c hc
    have htake := take_pid_of_prefix hlen hc
    rcases g.ownedKeys_between hl htake.1 hstop with hlast | ⟨head, b, hne, hsplit, hb, _, hmore⟩
    · exact .inl hlast
    · refine .inr ⟨_, b, hmore, hb, ?_, ?_⟩
      · rw [hsplit, List.filterMap_append]
        rfl
      · have hpos := List.length_pos_iff.mpr hne
        rw [hsplit, List.length_append]
        show (g.between b stop).length < _
        omega
  trimmed := by
    intro b g g' hb htrim
    have hkept : g'.between b stop = g.between b stop := by
      rw [between, between, filter_lt_and, filter_lt_and]
      exact htrim.after_eq _
    refine ⟨hb, ?_, ?_⟩
    · show (g'.between b stop).filterMap ownedKey = _
      rw [hkept]
      rfl
    · show (g'.between b stop).length ≤ _
      rw [hkept]
      exact le_rfl

end Ranges

section Cells

variable {g : GroupStorage} {c : Option Nat}

def cellEntry (idOf : Bytes → Nat) (kv : Bytes × Bytes) : Nat × DigestCell :=
  (idOf kv.1, (cell (some kv.2)).toOption.getD 0)

def GroupStorage.cellTable (g : GroupStorage) (pre : Bytes) (idOf : Bytes → Nat) : List (Nat × DigestCell) :=
  (g.metadata.entries.filter fun e => pre <+: e.1).map (cellEntry idOf)

structure Laid (pre : Bytes) (ref : Nat → Bytes) (bound : Nat) (g : GroupStorage) : Prop where
  cells : ∀ e ∈ g.metadata.entries, pre <+: e.1 → ∃ i, i < bound ∧ e.1 = ref i ∧ ∃ x, cell (some e.2) = .ok x

variable {pre : Bytes} {ref : Nat → Bytes} {idOf : Bytes → Nat} {bound : Nat}

theorem Laid.decoded (idOf : Bytes → Nat) (h : Laid pre ref bound g) {e : Bytes × Bytes}
    (he : e ∈ g.metadata.entries) (hpre : pre <+: e.1) : cell (some e.2) = .ok (cellEntry idOf e).2 := by
  obtain ⟨_, _, _, x, hx⟩ := h.cells e he hpre
  rw [cellEntry, hx]
  rfl

section

variable (hi : CellIndex pre ref idOf bound) (h : Laid pre ref bound g) (hc : ∀ a ∈ c, a < bound)

include hi h hc

theorem Laid.lt_iff {e : Bytes × Bytes} (he : e ∈ g.metadata.entries) (hpre : pre <+: e.1) :
    (c.map ref).getD pre < e.1 ↔ ∀ a ∈ c, a < (cellEntry idOf e).1 := by
  obtain ⟨i, hb, hei, _⟩ := h.cells e he hpre
  rw [cellEntry, hei, hi.idOf_ref i hb, hi.start_lt_iff hc hb]

theorem after_cellTable : after Prod.fst c (g.cellTable pre idOf) =
      (g.metadata.entries.filter fun e => (c.map ref).getD pre < e.1 ∧ pre <+: e.1).map (cellEntry idOf) := by
  rw [after, cellTable, List.filter_map, List.filter_filter]
  congr 1
  refine List.filter_congr ?_
  intro e he
  rw [Function.comp_apply, ← Bool.decide_and, decide_eq_decide]
  constructor
  · rintro ⟨hafter, hpre⟩
    exact ⟨(h.lt_iff hi hc he hpre).mpr hafter, hpre⟩
  · rintro ⟨hafter, hpre⟩
    exact ⟨(h.lt_iff hi hc he hpre).mp hafter, hpre⟩

theorem cellPage_eq (limit : Nat) :
    g.cellPage pre (c.map ref) idOf limit = .ok (cut Prod.fst limit (after Prod.fst c (g.cellTable pre idOf))) := by
  have hstart : pre <+: (c.map ref).getD pre := by
    cases c with
    | none => exact List.prefix_refl pre
    | some a => exact hi.starts a
  have hlist : g.list .metadata (some pre) (c.map ref) limit =
      g.list .metadata (some pre) (some ((c.map ref).getD pre)) limit := by
    cases c <;> rfl
  obtain ⟨page, hpage⟩ : ∃ page, page =
      g.list .metadata (some pre) (some ((c.map ref).getD pre)) limit := ⟨_, rfl⟩
  have htaken : page = (g.metadata.entries.filter fun e =>
      (c.map ref).getD pre < e.1 ∧ pre <+: e.1).take limit :=
    hpage.trans (g.list_forward_eq .metadata limit hstart)
  have hcells : page.mapM (fun kv => do
      let c ← cell (some kv.2)
      return (idOf kv.1, c)) = .ok (page.map (cellEntry idOf)) := by
    apply mapM_ok_of_forall
    intro e he
    rw [htaken] at he
    obtain ⟨hm, hboth⟩ := List.mem_filter.mp (List.mem_of_mem_take he)
    rw [h.decoded idOf hm (decide_eq_true_iff.mp hboth).2]
    rfl
  rw [cellPage, hlist, ← hpage, after_cellTable hi h hc, cut, ← List.map_take, ← htaken]
  show (page.mapM _ >>= _) = _
  rw [hcells]
  simp only [List.length_map]
  rfl

end

theorem catalogue_cellPage (hi : CellIndex pre ref idOf bound) (limit : Nat) :
    Catalogue Prod.fst limit (fun g c => cellPage g pre (c.map ref) idOf limit)
      (fun b => PrunedIn .metadata (ref b)) (Laid pre ref bound) (· < bound)
      (fun g => g.cellTable pre idOf) some where
  sorted g h := by
    rw [cellTable, List.pairwise_map]
    refine (g.metadata.sorted.filter _).imp_of_mem ?_
    intro a b ha hb hab
    obtain ⟨hma, hpa⟩ := List.mem_filter.mp ha
    obtain ⟨hmb, hpb⟩ := List.mem_filter.mp hb
    obtain ⟨i, hbi, hei, _⟩ := h.cells a hma (decide_eq_true_iff.mp hpa)
    obtain ⟨j, hbj, hej, _⟩ := h.cells b hmb (decide_eq_true_iff.mp hpb)
    rw [hei, hej, hi.lt_iff i j hbi hbj] at hab
    rwa [cellEntry, cellEntry, hei, hej, hi.idOf_ref i hbi, hi.idOf_ref j hbj]
  fits g h e he := by
    obtain ⟨kv, hkv, rfl⟩ := List.mem_map.mp he
    obtain ⟨hm, hpre⟩ := List.mem_filter.mp hkv
    obtain ⟨i, hb, hei, _⟩ := h.cells kv hm (decide_eq_true_iff.mp hpre)
    rwa [cellEntry, hei, hi.idOf_ref i hb]
  paged g c h hfits := by rw [cellPage_eq hi h hfits, List.filterMap_some]
  trimmed b g g' h hb htrim := by
    have hlaid : Laid pre ref bound g' := ⟨fun e he => h.cells e (htrim.deleted e he)⟩
    refine ⟨hlaid, ?_⟩
    have hfits : ∀ a ∈ some b, a < bound := by
      rintro a ⟨⟩
      exact hb
    rw [after_cellTable hi hlaid hfits, after_cellTable hi h hfits]
    dsimp only [Option.map_some, Option.getD_some]
    rw [filter_lt_and, filter_lt_and]
    exact congrArg (List.map (cellEntry idOf)) (htrim.after_eq _)

end Cells

end Tourillon
