import Tourillon.Storage.Reads
import Mathlib.Algebra.BigOperators.Group.Finset.Basic

namespace Tourillon

open Endian Exceptional GroupStorage DigestCell List

structure CellIndex (pre : Bytes) (ref : Nat → Bytes) (idOf : Bytes → Nat) (bound : Nat) : Prop where
  lt_iff : ∀ i j, i < bound → j < bound → (ref i < ref j ↔ i < j)
  idOf_ref : ∀ i, i < bound → idOf (ref i) = i
  starts : ∀ i, pre <+: ref i
  above : ∀ i, pre < ref i
  digest : ∀ i, IsDigestRef (ref i)
  isDigest : ∀ key, pre <+: key → IsDigestRef key
  only : ∀ (k : Key) key, k.Encodable → pre <+: key → key ∈ cellRefs k → ∃ i, i < bound ∧ key = ref i

theorem head_of_prefix {a : UInt8} {pre key : Bytes} (h : a :: pre <+: key) : key.head? = some a := by
  obtain ⟨rest, rfl⟩ := h
  rfl

theorem rootIndex : CellIndex rootPrefix rootRef rootPid (256 ^ pidSize) where
  lt_iff i j hi hj := by
    have ha : rootRef i < rootRef j ↔ _ := append_lt_append_iff rfl
    simpa [toBE_lt_iff hi hj] using ha
  idOf_ref i hi := by simp [rootPid, rootRef, ofBE_toBE hi]
  starts i := prefix_append _ _
  above i := self_lt_append (toBE_ne_nil (by decide))
  digest i := rfl
  isDigest key h := head_of_prefix h
  only k key hk hpre hmem := by
    simp only [cellRefs, mem_cons, not_mem_nil, or_false] at hmem
    rcases hmem with rfl | rfl
    · exact ⟨k.pid, hk.1, rfl⟩
    · simp [rootPrefix, bucketRef, bucketPrefix] at hpre

theorem bucketIndex {pid : Nat} (hp : pid < 256 ^ pidSize) :
    CellIndex (bucketPrefix ++ toBE pidSize pid) (bucketRef pid) bucketId (256 ^ bucketBytes) where
  lt_iff i j hi hj := by
    have ha : (bucketPrefix ++ toBE pidSize pid) ++ toBE bucketBytes i <
      (bucketPrefix ++ toBE pidSize pid) ++ toBE bucketBytes j ↔ _ := append_lt_append_iff rfl
    simpa [bucketRef, toBE_lt_iff hi hj] using ha
  idOf_ref i hi := by
    have hd : (bucketRef pid i).drop (bucketPrefix.length + pidSize) = toBE bucketBytes i := by
      rw [bucketRef, ← append_assoc]
      exact drop_left' (by simp)
    rw [bucketId, hd, ofBE_toBE hi]
  starts i := by
    rw [bucketRef, ← append_assoc]
    exact prefix_append _ _
  above i := by
    rw [bucketRef, ← append_assoc]
    exact self_lt_append (toBE_ne_nil (by decide))
  digest i := rfl
  isDigest key h := head_of_prefix h
  only k key hk hpre hmem := by
    simp only [cellRefs, mem_cons, not_mem_nil, or_false] at hmem
    rcases hmem with rfl | rfl
    · simp [bucketPrefix, rootRef, rootPrefix] at hpre
    · have hpid : toBE pidSize pid <+: toBE pidSize k.pid ++
          toBE bucketBytes (bucketOf k.ts.wallMs) :=
        (prefix_append_right_inj bucketPrefix).mp hpre
      have heq := prefix_of_prefix_length_le hpid
        (prefix_append (toBE pidSize k.pid) _) (by simp)
      have hpk : pid = k.pid := toBE_inj hp hk.1 (heq.eq_of_length (by simp))
      exact ⟨_, bucketOf_lt hk, by rw [hpk]⟩

theorem CellIndex.start_lt_iff {pre : Bytes} {ref : Nat → Bytes} {idOf : Bytes → Nat} {bound : Nat}
    (hi : CellIndex pre ref idOf bound) {after : Option Nat} (ha : ∀ a ∈ after, a < bound) {i : Nat}
    (hb : i < bound) : (after.map ref).getD pre < ref i ↔ ∀ a ∈ after, a < i := by
  cases after with
  | none => simpa using hi.above i
  | some a => simpa using hi.lt_iff a i (ha a rfl) hb

section Cells

variable [Blake2b] {g : GroupStorage} {cells : List (Nat × DigestCell)} {after : Option Nat} {ref : Nat → Bytes}
  {cursor : Option Nat} {limit : Nat} {idOf : Bytes → Nat} {bound : Nat}

def setCell (A : Finset Key) : DigestCell := A.sum of

theorem count_setCell (A : Finset Key) : (setCell A).count = A.card := by
  induction A using Finset.induction_on with
  | empty => rfl
  | insert k A hk ih =>
    rw [setCell, Finset.sum_insert hk, count_add, Finset.card_insert_of_notMem hk]
    rw [setCell] at ih
    rw [ih]
    simp only [of, ofBytes]
    push_cast
    omega

theorem setCell_eq_zero {A : Finset Key} (h : setCell A = 0) : A = ∅ := by
  have hc := count_setCell A
  rw [h, count_zero] at hc
  exact Finset.card_eq_zero.mp (by omega)

theorem foldAt_eq_setCell (h : Sound g) (ref : Bytes) :
    foldAt g.tags ref = setCell (g.held.filter fun k => ref ∈ cellRefs k) := by
  have hn := h.nodup_ownedVersions.filter (fun k => decide (ref ∈ cellRefs k))
  have hs := sum_toFinset of hn
  rw [toFinset_filter] at hs
  rw [foldAt_eq_ofKeys h.tagKeys, ofKeys_eq_sum, map_map, setCell]
  simp only [decide_eq_true_eq] at hs
  exact hs.symm

structure CellPage (g : GroupStorage) (ref : Nat → Bytes) (bound : Nat) (after : Option Nat)
    (cells : List (Nat × DigestCell)) (cursor : Option Nat) : Prop where
  listed : ∀ e ∈ cells, e.1 < bound ∧ e.2 = foldAt g.tags (ref e.1) ∧ e.2 ≠ 0
  range : ∀ e ∈ cells, (∀ a ∈ after, a < e.1) ∧ ∀ b ∈ cursor, e.1 ≤ b
  found : ∀ i, i < bound → (∀ a ∈ after, a < i) → (∀ b ∈ cursor, i ≤ b) →
    foldAt g.tags (ref i) ≠ 0 → i ∈ cells.map Prod.fst
  last : ∀ b ∈ cursor, b ∈ cells.map Prod.fst
  sorted : cells.Pairwise fun a b => a.1 < b.1

theorem exists_owned_of_foldAt_ne_zero (h : WellKeyed g.tags) {ref : Bytes} (hne : foldAt g.tags ref ≠ 0) :
    ∃ k ∈ g.ownedVersions, ref ∈ cellRefs k := by
  rw [foldAt_eq_ofKeys h] at hne
  obtain ⟨k, hk⟩ : ∃ k, k ∈ g.ownedVersions.filter fun k => ref ∈ cellRefs k := by
    refine exists_mem_of_ne_nil _ ?_
    intro hnil
    rw [hnil] at hne
    exact hne rfl
  obtain ⟨howned, href⟩ := mem_filter.mp hk
  exact ⟨k, howned, decide_eq_true_iff.mp href⟩

theorem exists_of_foldAt_ne_zero (h : Sound g) {ref : Bytes} (hne : foldAt g.tags ref ≠ 0) :
    ∃ k ∈ g.held, ref ∈ cellRefs k := by
  obtain ⟨k, howned, href⟩ := exists_owned_of_foldAt_ne_zero h.tagKeys hne
  exact ⟨k, mem_toFinset.mpr howned, href⟩

theorem foldAt_ne_zero_iff (h : DigestExact g) {ref : Bytes} (href : IsDigestRef ref) :
    foldAt g.tags ref ≠ 0 ↔ (g.metadata.get ref).isSome := by
  rw [(h.cells ref href).value, cellValue, ne_eq, ← DigestCell.isEmpty_iff]
  split <;> simp_all

theorem CellIndex.entry {pre : Bytes} (hi : CellIndex pre ref idOf bound) (h : DigestExact g)
    {e : Bytes × Bytes} (he : e ∈ g.metadata.entries) (hpre : pre <+: e.1) :
    ∃ i, i < bound ∧ e.1 = ref i ∧ cell (some e.2) = .ok (foldAt g.tags (ref i)) ∧ foldAt g.tags (ref i) ≠ 0 := by
  have href := hi.isDigest e.1 hpre
  have hget : g.metadata.get e.1 = some e.2 := OrderedMap.get_eq_some.mpr he
  have hne : foldAt g.tags e.1 ≠ 0 := by
    rw [foldAt_ne_zero_iff h href, hget]
    rfl
  obtain ⟨k, howned, hk⟩ := exists_owned_of_foldAt_ne_zero h.keyed hne
  obtain ⟨i, hb, hei⟩ := hi.only k e.1 (encodable_of_mem_ownedVersions h.keyed howned) hpre hk
  have hcell := cell_of_exactAt (h.cells e.1 href)
  rw [hget, hei] at hcell
  exact ⟨i, hb, hei, hcell, hei ▸ hne⟩

omit [Blake2b] in
theorem CellIndex.page {pre : Bytes} (hi : CellIndex pre ref idOf bound) (g : GroupStorage) (after : Option Nat)
    (hl : 1 ≤ limit) : Page (g.db .metadata) pre ((after.map ref).getD pre)
      (g.list .metadata (some pre) (after.map ref) limit)
      (pageCursor (g.list .metadata (some pre) (after.map ref) limit) limit) := by
  cases after with
  | none => exact g.list_page .metadata (prefix_refl pre) hl
  | some a => exact g.list_page .metadata (hi.starts a) hl

theorem cellPage_cells {pre : Bytes} (hi : CellIndex pre ref idOf bound) (h : Clean g)
    (ha : ∀ a ∈ after, a < bound) (hl : 1 ≤ limit)
    (hc : g.cellPage pre (after.map ref) idOf limit = .ok (cells, cursor)) :
    CellPage g ref bound after cells cursor := by
  have hpage := hi.page g after hl
  simp only [cellPage] at hc
  obtain ⟨page, hp⟩ : ∃ page, page = g.list .metadata (some pre) (after.map ref) limit := ⟨_, rfl⟩
  rw [← hp] at hpage hc
  simp only [bind_eq_ok, pure_eq_ok, Prod.mk.injEq] at hc
  obtain ⟨cells', hcells, rfl, rfl⟩ := hc
  have hentry (e : Bytes × Bytes) (he : e ∈ page) : ∃ i, i < bound ∧ e.1 = ref i ∧ idOf e.1 = i ∧
      cell (some e.2) = .ok (foldAt g.tags (ref i)) ∧ foldAt g.tags (ref i) ≠ 0 := by
    obtain ⟨hm, _, hpre, _⟩ := (hpage.mem e).mp he
    obtain ⟨i, hb, hei, hcell, hne⟩ := hi.entry h.toDigestExact hm hpre
    exact ⟨i, hb, hei, by rw [hei, hi.idOf_ref i hb], hcell, hne⟩
  obtain rfl : cells' = page.map fun e => (idOf e.1, foldAt g.tags e.1) := by
    refine mapM_ok_eq_map ?_ hcells
    intro e he y hy
    obtain ⟨i, _, hei, _, hcell, _⟩ := hentry e he
    simp only [hcell, bind_eq_ok, pure_eq_ok, Except.ok.injEq] at hy
    obtain ⟨_, rfl, rfl⟩ := hy
    rw [← hei]
  have hcursor : (if page.length = limit then
      (page.map fun e => (idOf e.1, foldAt g.tags e.1)).getLast?.map Prod.fst else none) =
      (pageCursor page limit).map idOf := by
    unfold pageCursor
    split
    · rw [getLast?_map, Option.map_map, Option.map_map]
      rfl
    · rfl
  rw [hcursor]
  have hle (i : Nat) (hb : i < bound) : (∀ b ∈ pageCursor page limit, ref i ≤ b) ↔
      ∀ b ∈ (pageCursor page limit).map idOf, i ≤ b := by
    cases hpc : pageCursor page limit with
    | none => simp
    | some c =>
      obtain ⟨e, he, hec⟩ := hpage.last c hpc
      obtain ⟨j, hj, hej, hid, _⟩ := hentry e he
      rw [hec] at hej hid
      have hlt := hi.lt_iff j i hj hb
      simp only [Option.mem_def, Option.some.injEq, forall_eq', Option.map_some, hej,
        hi.idOf_ref j hj, ← not_lt, hlt]
  refine ⟨?_, ?_, ?_, ?_, ?_⟩
  · intro x hx
    obtain ⟨e, he, rfl⟩ := mem_map.mp hx
    obtain ⟨i, hb, hei, hid, _, hne⟩ := hentry e he
    exact ⟨hid ▸ hb, by rw [hid, hei], by rw [hei]; exact hne⟩
  · intro x hx
    obtain ⟨e, he, rfl⟩ := mem_map.mp hx
    obtain ⟨i, hb, hei, hid, _⟩ := hentry e he
    obtain ⟨_, habove, _, hcur⟩ := (hpage.mem e).mp he
    rw [hei] at habove hcur
    exact ⟨hid ▸ (hi.start_lt_iff ha hb).mp habove, hid ▸ (hle i hb).mp hcur⟩
  · intro i hb hafter hcur hne
    rw [foldAt_ne_zero_iff h.toDigestExact (hi.digest i), Option.isSome_iff_exists] at hne
    obtain ⟨value, hv⟩ := hne
    have he : (ref i, value) ∈ page := by
      refine (hpage.mem _).mpr ⟨OrderedMap.get_eq_some.mp hv, ?_, hi.starts i, (hle i hb).mpr hcur⟩
      exact (hi.start_lt_iff ha hb).mpr hafter
    rw [map_map]
    exact mem_map.mpr ⟨_, he, hi.idOf_ref i hb⟩
  · intro b hb
    obtain ⟨c, hc, rfl⟩ := Option.map_eq_some_iff.mp hb
    obtain ⟨e, he, rfl⟩ := hpage.last c hc
    rw [map_map]
    exact mem_map.mpr ⟨e, he, rfl⟩
  · rw [pairwise_map]
    refine hpage.sorted.imp_of_mem ?_
    intro a b hma hmb hab
    obtain ⟨i, hib, hei, hidi, _⟩ := hentry a hma
    obtain ⟨j, hjb, hej, hidj, _⟩ := hentry b hmb
    rw [hei, hej] at hab
    rw [hidi, hidj]
    exact (hi.lt_iff i j hib hjb).mp hab

theorem CellPage.lookup (h : CellPage g ref bound after cells cursor) {i : Nat} (hb : i < bound)
    (ha : ∀ a ∈ after, a < i) (hc : ∀ b ∈ cursor, i ≤ b) : (cells.lookup i).getD 0 = foldAt g.tags (ref i) := by
  cases hl : cells.lookup i with
  | none =>
    by_contra hne
    obtain ⟨e, he, rfl⟩ := mem_map.mp (h.found i hb ha hc fun hz => hne (by rw [hz]; rfl))
    simpa using lookup_eq_none_iff.mp hl e he
  | some c =>
    obtain ⟨l, r, heq, _⟩ := lookup_eq_some_iff.mp hl
    exact (h.listed (i, c) (by rw [heq]; simp)).2.1

theorem bucketPage_cells (h : Clean g) {pid : Nat} (hc : g.bucketPage pid after limit = .ok (cells, cursor)) :
    pid < 256 ^ pidSize ∧ CellPage g (bucketRef pid) (256 ^ bucketBytes) after cells cursor := by
  simp only [bucketPage, refuse_eq_ok, bind_eq_ok, intToBytes_eq_ok] at hc
  obtain ⟨hlimit, _, ⟨hp, rfl⟩, start, hs, hc⟩ := hc
  have hstart := optionMapM_ok hs (g := bucketRef pid) (P := (· < 256 ^ bucketBytes)) ?_
  · rw [hstart.1] at hc
    exact ⟨hp, cellPage_cells (bucketIndex hp) h hstart.2 (Nat.le_of_not_lt hlimit) hc⟩
  · intro a b hab
    obtain ⟨⟨_, hb⟩, rfl⟩ := bucketKey_eq_ok.mp hab
    exact ⟨rfl, hb⟩

theorem rootPage_cells (h : Clean g) (hc : g.rootPage after limit = .ok (cells, cursor)) :
    CellPage g rootRef (256 ^ pidSize) after cells cursor := by
  simp only [rootPage, refuse_eq_ok, bind_eq_ok] at hc
  obtain ⟨hlimit, start, hs, hc⟩ := hc
  have hstart := optionMapM_ok hs (g := rootRef) (P := (· < 256 ^ pidSize)) ?_
  · rw [hstart.1] at hc
    exact cellPage_cells rootIndex h hstart.2 (Nat.le_of_not_lt hlimit) hc
  · intro a b hab
    obtain ⟨hb, rfl⟩ := rootKey_eq_ok.mp hab
    exact ⟨rfl, hb⟩

theorem cellPage_ok {pre : Bytes} (hi : CellIndex pre ref idOf bound) (h : Clean g) (after : Option Nat)
    (hl : 1 ≤ limit) : ∃ cells cursor, g.cellPage pre (after.map ref) idOf limit = .ok (cells, cursor) ∧
      (cursor.isSome → cells.length = limit) := by
  have hpage := hi.page g after hl
  have hcells : (g.list .metadata (some pre) (after.map ref) limit).mapM (fun kv => do
      let c ← cell (some kv.2)
      return (idOf kv.1, c)) =
      .ok ((g.list .metadata (some pre) (after.map ref) limit).map fun e =>
        (idOf e.1, foldAt g.tags e.1)) := by
    apply mapM_ok_of_forall
    intro e he
    obtain ⟨hm, _, hpre, _⟩ := (hpage.mem e).mp he
    obtain ⟨i, _, hei, hcell, _⟩ := hi.entry h.toDigestExact hm hpre
    rw [hcell, hei]
    rfl
  refine ⟨_, _, by rw [cellPage, hcells]; rfl, ?_⟩
  intro hcursor
  rw [length_map]
  by_contra hne
  rw [if_neg hne] at hcursor
  cases hcursor

theorem rootPage_ok (h : Clean g) (ha : ∀ a ∈ after, a < 256 ^ pidSize) (hl : 1 ≤ limit) :
    ∃ cells cursor, g.rootPage after limit = .ok (cells, cursor) ∧ (cursor.isSome → cells.length = limit) := by
  obtain ⟨cells, cursor, hpage, hfull⟩ := cellPage_ok rootIndex h after hl
  have hstart : after.mapM rootKey = .ok (after.map rootRef) := by
    cases after with
    | none => rfl
    | some a =>
      rw [Option.mapM_some, rootKey_eq_ok.mpr ⟨ha a rfl, rfl⟩]
      rfl
  refine ⟨cells, cursor, ?_, hfull⟩
  rw [rootPage, if_neg (Nat.not_lt.mpr hl), hstart]
  exact hpage

theorem roots_cells (h : Clean g) {pids : List Nat} {cells : List DigestCell} (hc : g.roots pids = .ok cells) :
    (∀ pid ∈ pids, pid < 256 ^ pidSize) ∧ cells = pids.map fun pid => foldAt g.tags (rootRef pid) := by
  simp only [roots, bind_eq_ok] at hc
  obtain ⟨refs, hrefs, hcells⟩ := hc
  have hsize (pid : Nat) (hp : pid ∈ pids) : pid < 256 ^ pidSize := by
    obtain ⟨ref, _, href⟩ := exists_of_mem_mapM hrefs hp
    exact (rootKey_eq_ok.mp href).1
  refine ⟨hsize, ?_⟩
  rw [mapM_ok_eq_map (fun pid _ ref href => (rootKey_eq_ok.mp href).2) hrefs] at hcells
  rw [mapM_ok_eq_map (g := fun ref => foldAt g.tags ref) ?_ hcells, map_map]
  · rfl
  · intro ref href c hcell
    obtain ⟨pid, _, rfl⟩ := mem_map.mp href
    have hexact := cell_of_exactAt (h.cells (rootRef pid) rfl)
    exact Except.ok.inj (hcell.symm.trans hexact)

end Cells

end Tourillon
