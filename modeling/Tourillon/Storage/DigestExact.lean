import Tourillon.Storage.Holdings
import Tourillon.Storage.SessionSpec

namespace Tourillon

open Endian Exceptional GroupSession GroupStorage DigestCell OrderedMap

variable {key : Key} {ref : Bytes}

def IsDigestRef (ref : Bytes) : Prop := ref.head? = some MetaKind.digest.value

theorem isDigestRef_of_mem_cellRefs (h : ref ∈ cellRefs key) : IsDigestRef ref := by
  simp only [cellRefs, List.mem_cons, List.not_mem_nil, or_false] at h
  rcases h with rfl | rfl <;> rfl

def coveredBy (ref : Bytes) (e : Bytes × Bytes) : Bool :=
  ownedTagValue e.2 && (match Key.fromBytes .tags e.1 with
    | .ok k => decide (ref ∈ cellRefs k)
    | .error _ => false)

theorem coveredBy_encode {value : Bytes} (h : key.Encodable) :
    coveredBy ref (key.encode .tags, value) = (ownedTagValue value && decide (ref ∈ cellRefs key)) := by
  simp [coveredBy, Key.fromBytes_tags_encode h]

def cellValue (c : DigestCell) : Option Bytes := if c.isEmpty then none else some c.encode

section Cells

variable [Blake2b] {tags : Db} {key : Key} {value : Bytes}

def foldAt (tags : Db) (ref : Bytes) : DigestCell := tags.sumWhere (coveredBy ref) ofBytes

structure ExactAt (storedCells tags : Db) (ref : Bytes) : Prop where
  value : storedCells.get ref = cellValue (foldAt tags ref)
  fits : (foldAt tags ref).Encodable

structure DigestExact (g : GroupStorage) : Prop where
  keyed : WellKeyed g.tags
  cells : ∀ ref, IsDigestRef ref → ExactAt g.metadata g.tags ref

structure Tracks (storedCells tags : Db) (deltas stored : OrderedMap Bytes DigestCell) : Prop where
  keyed : WellKeyed tags
  known : ∀ ref c, stored.get ref = some c → c + (deltas.get ref).getD 0 = foldAt tags ref
  loaded : ∀ ref, deltas.get ref ≠ none → stored.get ref ≠ none
  digests : ∀ ref, stored.get ref ≠ none → IsDigestRef ref
  exact : ∀ ref, IsDigestRef ref → deltas.get ref = none → ExactAt storedCells tags ref

def SessionExact (s : GroupSession) : Prop := Tracks s.storage.metadata s.storage.tags s.deltas s.stored

theorem sessionExact_start {g : GroupStorage} (h : DigestExact g) : SessionExact (start g) where
  keyed := h.keyed
  known ref c hc := by simp [start] at hc
  loaded ref hd := absurd rfl hd
  digests ref hs := absurd rfl hs
  exact ref href _ := h.cells ref href

theorem cell_of_exactAt {storedCells : Db} {ref : Bytes} (h : ExactAt storedCells tags ref) :
    cell (storedCells.get ref) = .ok (foldAt tags ref) := by
  rw [h.value]
  unfold cellValue
  split
  · rename_i he
    rw [isEmpty_iff.mp he]
    rfl
  · exact fromBytes_encode h.fits

theorem foldAt_insert (hk : key.Encodable) (hn : tags.get (key.encode .tags) = none) (ref : Bytes) :
    foldAt (tags.insert (key.encode .tags) value) ref = foldAt tags ref +
      (if ownedTagValue value ∧ ref ∈ cellRefs key then of key else 0) := by
  unfold foldAt
  rw [sumWhere_insert _ _ _ _ hn, coveredBy_encode hk, add_comm]
  simp [of]

theorem foldAt_erase (hk : key.Encodable) (hv : tags.get (key.encode .tags) = some value) (ref : Bytes) :
    foldAt (tags.erase (key.encode .tags)) ref = foldAt tags ref -
      (if ownedTagValue value ∧ ref ∈ cellRefs key then of key else 0) := by
  unfold foldAt
  rw [sumWhere_erase _ _ _ hv, coveredBy_encode hk]
  simp [of]

end Cells

section Load

variable {s : GroupSession} {keys : List Key} {refs : List Bytes}

theorem mem_unknownCells (hk : ∀ k ∈ keys, k.Encodable) (h : s.unknownCells keys = .ok refs) (ref : Bytes) :
    ref ∈ refs ↔ (∃ k ∈ keys, ref ∈ cellRefs k) ∧ s.stored.get ref = none := by
  simp only [unknownCells, bind_eq_ok, pure_eq_ok] at h
  obtain ⟨pairs, hp, rfl⟩ := h
  have hm := mapM_ok_of_forall
    (g := fun k : Key => (rootRef k.pid, bucketRef k.pid (bucketOf k.ts.wallMs)))
    fun k hk' => cellKeys_ok (hk k hk')
  rw [hm] at hp
  cases hp
  simp only [List.mem_insertionSort, List.mem_eraseDups, List.mem_filter, List.mem_flatMap,
    List.mem_map, exists_exists_and_eq_and, Bool.not_eq_true', contains]
  refine and_congr Iff.rfl ?_
  cases s.stored.get ref <;> simp

theorem unknownCells_ok (hk : ∀ k ∈ keys, k.Encodable) : ∃ refs, s.unknownCells keys = .ok refs := by
  have hm := mapM_ok_of_forall
    (g := fun k : Key => (rootRef k.pid, bucketRef k.pid (bucketOf k.ts.wallMs)))
    fun k hk' => cellKeys_ok (hk k hk')
  simp [unknownCells, hm, bind, Except.bind, pure, Except.pure]

theorem get_foldl_insert {m : OrderedMap Bytes DigestCell} {f : Bytes → DigestCell}
    {cells : List (Bytes × DigestCell)} (h : ∀ e ∈ cells, e.2 = f e.1) (ref : Bytes) :
    (cells.foldl (fun m e => m.insert e.1 e.2) m).get ref =
      if ref ∈ cells.map Prod.fst then some (f ref) else m.get ref := by
  induction cells generalizing m with
  | nil => simp
  | cons e cells ih =>
    have he := h e (by simp)
    rw [List.foldl_cons, ih fun d hd => h d (by simp [hd]), get_insert]
    by_cases hr : ref = e.1
    · subst hr
      simp [he]
    · simp only [hr, if_false, List.map_cons, List.mem_cons, false_or]

variable [Blake2b]

theorem tracks_loadCells {s' : GroupSession} {d : Db} (h : Tracks s.storage.metadata d s.deltas s.stored)
    (hrefs : ∀ ref ∈ refs, IsDigestRef ref ∧ s.stored.get ref = none) (hl : s.loadCells refs = .ok s') :
    s'.storage = s.storage ∧ s'.deltas = s.deltas ∧
      (∀ ref, s'.stored.get ref ≠ none ↔ ref ∈ refs ∨ s.stored.get ref ≠ none) ∧
      Tracks s.storage.metadata d s.deltas s'.stored := by
  have hd (ref : Bytes) (hs : s.stored.get ref = none) : s.deltas.get ref = none := by
    by_contra hne
    exact h.loaded ref hne hs
  simp only [loadCells, bind_eq_ok, pure_eq_ok] at hl
  obtain ⟨cells, hc, rfl⟩ := hl
  have hm : refs.mapM (fun ref => do
      let c ← cell (s.storage.get .metadata ref)
      return (ref, c)) = .ok (refs.map fun ref => (ref, foldAt d ref)) := by
    refine mapM_ok_of_forall fun ref href => ?_
    have he := h.exact ref (hrefs ref href).1 (hd ref (hrefs ref href).2)
    have hcell : cell (s.storage.get .metadata ref) = .ok (foldAt d ref) := cell_of_exactAt he
    simp [hcell, bind, Except.bind, pure, Except.pure]
  rw [hm] at hc
  cases hc
  have hget (ref : Bytes) : (List.foldl (fun m (e : Bytes × DigestCell) => m.insert e.1 e.2) s.stored
      (refs.map fun ref => (ref, foldAt d ref))).get ref =
      if ref ∈ refs then some (foldAt d ref) else s.stored.get ref := by
    rw [get_foldl_insert (f := foldAt d)]
    · simp [List.map_map, Function.comp_def]
    · simp
  refine ⟨rfl, rfl, ?_, h.keyed, ?_, ?_, ?_, h.exact⟩
  · intro ref
    rw [hget]
    by_cases hr : ref ∈ refs <;> simp [hr]
  · intro ref c hc
    rw [hget] at hc
    split at hc
    · rename_i hr
      cases hc
      simp [hd ref (hrefs ref hr).2]
    · exact h.known ref c hc
  · intro ref hne
    rw [hget]
    split
    · simp
    · exact h.loaded ref hne
  · intro ref hne
    rw [hget] at hne
    split at hne
    · rename_i hr
      exact (hrefs ref hr).1
    · exact h.digests ref hne

end Load

section Writes

variable [Blake2b] {s : GroupSession} {keys : List Key} {records : List Record} {rs : List (Record × Bool)}
  {m : OrderedMap Bytes DigestCell} {ref : Bytes} {s' : GroupSession}

def gain (ref : Bytes) (e : Record × Bool) : DigestCell :=
  if e.2 ∧ e.1.owned ∧ ref ∈ cellRefs e.1.key then of e.1.key else 0

theorem foldAt_addVersion {g : GroupStorage} {r : Record} (hk : r.key.Encodable) (ref : Bytes) :
    foldAt (g.addVersion r).tags ref = foldAt g.tags ref + gain ref (r, !g.tags.contains (r.key.encode .tags)) := by
  cases h : g.tags.get (r.key.encode .tags) with
  | none =>
    simp only [addVersion, insertNew_of_none h, foldAt_insert hk h, ownedTagValue_toBytes, gain, contains, h]
    simp [Record.owned]
  | some v => simp [addVersion, insertNew_of_some h, gain, contains, h]

theorem addVersions_tags (hk : ∀ r ∈ records, r.key.Encodable) (g : GroupStorage) (h : WellKeyed g.tags) :
    WellKeyed (records.foldl addVersion g).tags ∧
      ∀ ref, foldAt (records.foldl addVersion g).tags ref = foldAt g.tags ref +
        ((records.zip (newFlags records g)).map (gain ref)).sum := by
  induction records generalizing g with
  | nil => exact ⟨h, by simp⟩
  | cons r records ih =>
    have hr := hk r (by simp)
    obtain ⟨hkeyed, hfold⟩ := ih (fun r' hr' => hk r' (by simp [hr'])) (g.addVersion r)
      (wellKeyed_addVersion h hr)
    refine ⟨hkeyed, ?_⟩
    intro ref
    rw [List.foldl_cons, hfold, foldAt_addVersion hr]
    simp only [newFlags, List.zip_cons_cons, List.map_cons, List.sum_cons, add_assoc]

theorem getD_foldDeltas (rs : List (Record × Bool)) (m : OrderedMap Bytes DigestCell) (ref : Bytes) :
    ((foldDeltas rs m).get ref).getD 0 = (m.get ref).getD 0 + (rs.map (gain ref)).sum := by
  induction rs generalizing m with
  | nil => simp [foldDeltas]
  | cons e rs ih =>
    obtain ⟨r, ok⟩ := e
    rw [foldDeltas, ih, List.map_cons, List.sum_cons, ← add_assoc]
    congr 1
    cases ok <;> cases ho : r.owned <;> simp [gain, ho, get_addCell]
    split <;> simp_all

theorem foldDeltas_get_none (h : (foldDeltas rs m).get ref = none) :
    m.get ref = none ∧ (rs.map (gain ref)).sum = 0 := by
  induction rs generalizing m with
  | nil => exact ⟨h, rfl⟩
  | cons e rs ih =>
    obtain ⟨r, ok⟩ := e
    rw [foldDeltas] at h
    obtain ⟨hm, hsum⟩ := ih h
    rw [List.map_cons, List.sum_cons, hsum, add_zero]
    split at hm
    · by_cases hc : ref ∈ cellRefs r.key
      · simp [get_addCell, hc] at hm
      · rw [get_addCell, if_neg hc] at hm
        exact ⟨hm, by simp [gain, hc]⟩
    · rename_i hok
      refine ⟨hm, if_neg ?_⟩
      rintro ⟨rfl, ho, _⟩
      exact hok (by simpa using ho)

theorem foldDeltas_get_cases (h : (foldDeltas rs m).get ref ≠ none) :
    m.get ref ≠ none ∨ ∃ r, (r, true) ∈ rs ∧ r.owned = true ∧ ref ∈ cellRefs r.key := by
  induction rs generalizing m with
  | nil => exact .inl h
  | cons e rs ih =>
    obtain ⟨r, ok⟩ := e
    rw [foldDeltas] at h
    rcases ih h with hm | ⟨q, hq, hx⟩
    · split at hm
      · rename_i hok
        obtain ⟨rfl, howned⟩ := Bool.and_eq_true_iff.mp hok
        by_cases hc : ref ∈ cellRefs r.key
        · exact .inr ⟨r, List.mem_cons_self .., howned, hc⟩
        · rw [get_addCell, if_neg hc] at hm
          exact .inl hm
      · exact .inl hm
    · exact .inr ⟨q, List.mem_cons_of_mem _ hq, hx⟩

theorem sessionExact_putMany {written : List Bool} (h : SessionExact s)
    (hp : s.putMany records = .ok (written, s')) : SessionExact s' := by
  obtain ⟨hk, rfl, refs, s₁, hrefs, hl, rfl⟩ := putMany_cases hp
  have howned : ∀ k ∈ (records.filter Record.owned).map (fun r => r.key), k.Encodable := by
    intro k hkm
    obtain ⟨r, hr, rfl⟩ := List.mem_map.mp hkm
    exact (hk r (List.mem_of_mem_filter hr)).1
  have hmem := mem_unknownCells howned hrefs
  obtain ⟨hkeyed, hfold⟩ := addVersions_tags (fun r hr => (hk r hr).1) s.storage h.keyed
  obtain ⟨hst, hd, hstored, ht⟩ := tracks_loadCells (d := s.storage.tags)
    (s := { s with storage := records.foldl addVersion s.storage })
    (by simpa [SessionExact, foldl_addVersion_metadata] using h)
    (fun ref hr => by
      obtain ⟨⟨k, _, hc⟩, hn⟩ := (hmem ref).mp hr
      exact ⟨isDigestRef_of_mem_cellRefs hc, hn⟩) hl
  simp only at hst hd ht
  unfold SessionExact
  simp only [hst, hd]
  refine ⟨hkeyed, ?_, ?_, ht.digests, ?_⟩
  · intro ref c hc
    rw [getD_foldDeltas, ← add_assoc, ht.known ref c hc, hfold]
  · intro ref hne
    rcases foldDeltas_get_cases hne with hdel | ⟨r, hr, ho, hc⟩
    · exact ht.loaded ref hdel
    · rw [hstored]
      by_cases hs : s.stored.get ref = none
      · refine .inl ((hmem ref).mpr ⟨⟨r.key, ?_, hc⟩, hs⟩)
        exact List.mem_map.mpr ⟨r, List.mem_filter.mpr ⟨(List.of_mem_zip hr).1, ho⟩, rfl⟩
      · exact .inr hs
  · intro ref href hnone
    obtain ⟨hdel, hsum⟩ := foldDeltas_get_none hnone
    have hex := ht.exact ref href hdel
    have heq : foldAt (records.foldl addVersion s.storage).tags ref =
        foldAt s.storage.tags ref := by rw [hfold, hsum, add_zero]
    exact ⟨heq ▸ hex.value, heq ▸ hex.fits⟩

def loss (ref : Bytes) (key : Key) : DigestCell := if ref ∈ cellRefs key then of key else 0

theorem dropVersions_tags (hn : keys.Nodup) (g : GroupStorage) (hk : ∀ k ∈ keys, OwnedIn g.tags k)
    (h : WellKeyed g.tags) : WellKeyed (keys.foldl dropVersion g).tags ∧
      ∀ ref, foldAt (keys.foldl dropVersion g).tags ref =
        foldAt g.tags ref + (keys.map fun k => -loss ref k).sum := by
  induction keys generalizing g with
  | nil => exact ⟨h, by simp⟩
  | cons key keys ih =>
    obtain ⟨hne, hn⟩ := List.nodup_cons.mp hn
    obtain ⟨hkey, value, hv, ho⟩ := hk key (by simp)
    have hrest (k : Key) (hkm : k ∈ keys) : OwnedIn (g.dropVersion key).tags k := by
      obtain ⟨hke, v, hvk, hok⟩ := hk k (by simp [hkm])
      refine ⟨hke, v, ?_, hok⟩
      have hdiff : k.encode .tags ≠ key.encode .tags := by
        intro he
        exact hne (Key.encode_tags_inj hke hkey he ▸ hkm)
      simpa [dropVersion, get_erase, hdiff] using hvk
    obtain ⟨hkeyed, hfold⟩ := ih hn (g.dropVersion key) hrest (wellKeyed_erase h _)
    refine ⟨hkeyed, ?_⟩
    intro ref
    rw [List.foldl_cons, hfold, List.map_cons, List.sum_cons, ← add_assoc]
    congr 1
    simp only [dropVersion, foldAt_erase hkey hv, ho, true_and, loss, sub_eq_add_neg]

theorem getD_dropDeltas (keys : List Key) (m : OrderedMap Bytes DigestCell) (ref : Bytes) :
    ((keys.foldl (fun m k => addCell m k (-of k)) m).get ref).getD 0 =
      (m.get ref).getD 0 + (keys.map fun k => -loss ref k).sum := by
  induction keys generalizing m with
  | nil => simp
  | cons key keys ih =>
    rw [List.foldl_cons, ih, List.map_cons, List.sum_cons, ← add_assoc, get_addCell]
    congr 1
    unfold loss
    split <;> simp

theorem dropDeltas_get (keys : List Key) (m : OrderedMap Bytes DigestCell) (ref : Bytes) :
    (keys.foldl (fun m k => addCell m k (-of k)) m).get ref = none ↔
      m.get ref = none ∧ ∀ k ∈ keys, ref ∉ cellRefs k := by
  induction keys generalizing m with
  | nil => simp
  | cons key keys ih =>
    rw [List.foldl_cons, ih, get_addCell]
    by_cases hc : ref ∈ cellRefs key
    · simp [hc]
    · simp [hc]

theorem sessionExact_drop {s₁ : GroupSession} {refs : List Bytes} (h : SessionExact s) (hn : keys.Nodup)
    (hk : ∀ k ∈ keys, OwnedIn s.storage.tags k) (hrefs : s.unknownCells keys = .ok refs)
    (hl : s.loadCells refs = .ok s₁) : SessionExact { s₁ with
      storage := keys.foldl dropVersion s₁.storage
      deltas := keys.foldl (fun m k => addCell m k (-of k)) s₁.deltas } := by
  have hmem := mem_unknownCells (fun k hkm => (hk k hkm).1) hrefs
  obtain ⟨hst, hd, hstored, ht⟩ := tracks_loadCells h (fun ref href => by
    obtain ⟨⟨k, _, hc⟩, hnone⟩ := (hmem ref).mp href
    exact ⟨isDigestRef_of_mem_cellRefs hc, hnone⟩) hl
  obtain ⟨hkeyed, hfold⟩ := dropVersions_tags hn s.storage hk h.keyed
  unfold SessionExact
  simp only [hst, hd, foldl_dropVersion_metadata]
  refine ⟨hkeyed, ?_, ?_, ht.digests, ?_⟩
  · intro ref c hc
    rw [getD_dropDeltas, ← add_assoc, ht.known ref c hc, hfold]
  · intro ref hne
    rw [ne_eq, dropDeltas_get, not_and_or] at hne
    rw [hstored]
    rcases hne with hdel | hcell
    · exact .inr (h.loaded ref hdel)
    · simp only [not_forall, not_not, exists_prop] at hcell
      by_cases hs : s.stored.get ref = none
      · exact .inl ((hmem ref).mpr ⟨hcell, hs⟩)
      · exact .inr hs
  · intro ref href hnone
    obtain ⟨hdel, hcell⟩ := (dropDeltas_get keys s.deltas ref).mp hnone
    have hex := ht.exact ref href hdel
    have hsum : (keys.map fun k => -loss ref k).sum = 0 := by
      refine List.sum_eq_zero ?_
      intro c hc
      obtain ⟨k, hkm, rfl⟩ := List.mem_map.mp hc
      simp [loss, hcell k hkm]
    have heq : foldAt (keys.foldl dropVersion s.storage).tags ref =
        foldAt s.storage.tags ref := by rw [hfold, hsum, add_zero]
    exact ⟨heq ▸ hex.value, heq ▸ hex.fits⟩

theorem sessionExact_remove {dryRun : Bool} {result : Nat × Nat} (h : SessionExact s)
    (hr : s.remove keys dryRun = .ok (result, s')) : SessionExact s' := by
  obtain ⟨candidates, hn, hk, ⟨_, rfl⟩ | ⟨_, refs, s₁, hrefs, hl, rfl⟩⟩ := remove_cases hr
  · exact h
  · exact sessionExact_drop h hn (fun k hkm => (hk k hkm).2) hrefs hl

end Writes

end Tourillon
