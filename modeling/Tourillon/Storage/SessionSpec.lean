import Tourillon.Storage.Session
import Mathlib.Data.List.ReduceOption

namespace Tourillon

open Endian Exceptional ObligationKey GroupSessionManager GroupStorage List OrderedMap

variable {s s' : GroupSession} {α Call : Type} {body : GroupSession → Except PyError (α × GroupSession)}
  {g : GroupStorage} {exec : GroupSession → Call → Except PyError GroupSession} {a : Unit}

theorem GroupStorage.read_eq_ok {k : Key} {found : Option Record} : g.read k = .ok found ↔ k.Encodable ∧
      recordAt k (g.get .tags (k.encode .tags)) (g.get .logs (k.encode .logs)) = .ok found := by
  simp only [read, getMany, mapM_cons, mapM_nil, bind_eq_ok, pure_eq_ok, Key.toBytes_tags_eq_ok,
    Key.toBytes_logs_eq_ok]
  constructor
  · rintro ⟨_, ⟨_, ⟨_, ⟨_, ⟨hk, rfl⟩, _, ⟨_, rfl⟩, rfl⟩, _, rfl, rfl⟩, hrecords⟩, rfl⟩
    simp only [mapM_cons, mapM_nil, bind_eq_ok, pure_eq_ok] at hrecords
    obtain ⟨_, hrecord, _, rfl, rfl⟩ := hrecords
    exact ⟨hk, hrecord⟩
  · rintro ⟨hk, hrecord⟩
    exact ⟨_, ⟨_, ⟨_, ⟨_, ⟨hk, rfl⟩, _, ⟨hk, rfl⟩, rfl⟩, _, rfl, rfl⟩, by rw [mapM_cons, hrecord]; rfl⟩, rfl⟩

namespace GroupSession

variable {s s' : GroupSession} {obligations : List ObligationKey} {keys : List Key} {g : GroupStorage}
  {key : Key}

def addCell (m : OrderedMap Bytes DigestCell) (key : Key) (c : DigestCell) : OrderedMap Bytes DigestCell :=
  adjust (adjust m (rootRef key.pid) (· + c)) (bucketRef key.pid (bucketOf key.ts.wallMs)) (· + c)

theorem get_addCell (m : OrderedMap Bytes DigestCell) (key : Key) (c : DigestCell) (ref : Bytes) :
    (addCell m key c).get ref =
      if ref ∈ cellRefs key then some ((m.get ref).getD 0 + c) else m.get ref := by
  have hne := rootRef_ne_bucketRef key.pid key.pid (bucketOf key.ts.wallMs)
  simp only [addCell, adjust, get_insert, cellRefs, mem_cons, not_mem_nil, or_false]
  by_cases hb : ref = bucketRef key.pid (bucketOf key.ts.wallMs)
  · simp [hb, hne.symm]
  · by_cases hr : ref = rootRef key.pid
    · simp [hr, hne]
    · simp [hb, hr]

section Fold

variable [Blake2b]

def foldDeltas : List (Record × Bool) → OrderedMap Bytes DigestCell → OrderedMap Bytes DigestCell
  | [], m => m
  | (r, ok) :: rest, m => foldDeltas rest (if ok && r.owned then addCell m r.key (DigestCell.of r.key) else m)

theorem fold_ok (s : GroupSession) {key : Key} (h : key.Encodable) :
    s.fold key = .ok { s with deltas := addCell s.deltas key (DigestCell.of key) } := by
  simp [fold, cellKeys_ok h, addCell, bind, Except.bind, pure, Except.pure]

theorem foldlM_fold_ok (s : GroupSession) {rs : List (Record × Bool)} (h : ∀ e ∈ rs, e.1.key.Encodable) :
    rs.foldlM (fun (s : GroupSession) (e : Record × Bool) =>
        if e.2 && e.1.owned then s.fold e.1.key else .ok s) s =
      .ok { s with deltas := foldDeltas rs s.deltas } := by
  induction rs generalizing s with
  | nil => rfl
  | cons e rs ih =>
    have ih' (s : GroupSession) := ih s fun d hd => h d (by simp [hd])
    by_cases he : (e.2 && e.1.owned) = true
    · simp only [foldlM_cons, he, if_true, fold_ok s (h e (by simp)), foldDeltas]
      exact ih' _
    · simp only [foldlM_cons, he, foldDeltas]
      exact ih' _

end Fold

theorem loadCells_cases {refs : List Bytes} (h : s.loadCells refs = .ok s') : ∃ stored, { s with stored } = s' := by
  simp only [loadCells, bind_eq_ok, pure_eq_ok] at h
  obtain ⟨_, _, rfl⟩ := h
  exact ⟨_, rfl⟩

theorem putMany_cases [Blake2b] {records : List Record} {written : List Bool}
    (h : s.putMany records = .ok (written, s')) : (∀ r ∈ records, r.key.Encodable ∧ r.value.quorumWrite < 256) ∧
      written = newFlags records s.storage ∧
      ∃ refs s₁, s.unknownCells ((records.filter Record.owned).map fun r => r.key) = .ok refs ∧
        loadCells { s with storage := records.foldl addVersion s.storage } refs =
          .ok s₁ ∧
        s' = { s₁ with deltas := foldDeltas (records.zip written) s₁.deltas } := by
  by_cases hr : records = []
  · subst hr
    cases h
    exact ⟨by simp, rfl, [], s, rfl, rfl, rfl⟩
  · simp only [putMany, hr, if_false, bind_eq_ok, pure_eq_ok, insert] at h
    obtain ⟨tags, htags, ⟨_, s₁⟩, ⟨refs, hrefs, logs, hlogs, s₁, hl, he⟩, s₂, hf, hs'⟩ := h
    have htags' := mapM_ok_eq_map (fun r _ kv hkv => (tagKv_eq_ok.mp hkv).2) htags
    have hlogs' := mapM_ok_eq_map (fun r _ kv hkv => (logKv_eq_ok.mp hkv).2) hlogs
    rw [htags', hlogs', zip_map', putVersions_eq] at hl he
    cases he
    cases hs'
    have hk (r : Record) (hr : r ∈ records) : r.key.Encodable ∧ r.value.quorumWrite < 256 := by
      obtain ⟨kv, _, hkv⟩ := exists_of_mem_mapM hlogs hr
      exact (logKv_eq_ok.mp hkv).1
    refine ⟨hk, rfl, refs, s₁, hrefs, hl, ?_⟩
    rw [foldlM_fold_ok s₁ fun e he => (hk e.1 (of_mem_zip he).1).1] at hf
    exact (Except.ok.inj hf).symm

theorem removable_eq_some {e : Key × Nat} (h : removable g key = .ok (some e)) : e.1 = key ∧ key.Encodable ∧
      ∃ value, g.tags.get (key.encode .tags) = some value ∧ ownedTagValue value := by
  simp only [removable, bind_eq_ok, GroupStorage.read_eq_ok] at h
  obtain ⟨r, ⟨hk, hr⟩, hm⟩ := h
  cases r with
  | none => simp at hm
  | some record =>
    unfold recordAt at hr
    split at hr
    · rename_i tag log htag hlog
      simp only [bind_eq_ok, pure_eq_ok, Option.some.injEq] at hr
      obtain ⟨t, ht, _, _, rfl⟩ := hr
      have howned : t.kind.owned = true ∧ e.1 = key := by
        by_cases ho : t.kind.owned = true
        · simp only [Record.owned, ho, if_true, bind_eq_ok, pure_eq_ok, Option.some.injEq] at hm
          obtain ⟨_, _, _, _, rfl⟩ := hm
          exact ⟨ho, rfl⟩
        · simp [Record.owned, ho] at hm
      refine ⟨howned.2, hk, tag, htag, ?_⟩
      rw [ownedTagValue_of_fromBytes ht]
      exact howned.1
    · simp at hr

theorem reduceOption_sublist {found : List (Option (Key × Nat))} (h : keys.mapM (removable g) = .ok found) :
    (found.reduceOption.map Prod.fst).Sublist keys := by
  rw [mapM_eq_ok] at h
  induction h with
  | nil => exact List.Sublist.slnil
  | @cons key r keys found hr _ ih =>
    cases r with
    | none => exact ih.cons key
    | some e =>
      rw [reduceOption_cons_of_some, map_cons, (removable_eq_some hr).1]
      exact ih.cons_cons key

theorem removeRecord_ok [Blake2b] (s : GroupSession) (h : key.Encodable) : s.removeRecord key = .ok { s with
      storage := s.storage.dropVersion key
      deltas := addCell s.deltas key (-DigestCell.of key) } := by
  have hl := Key.toBytes_logs_eq_ok.mpr ⟨h, rfl⟩
  have ht := Key.toBytes_tags_eq_ok.mpr ⟨h, rfl⟩
  simp [removeRecord, hl, ht, cellKeys_ok h, addCell, sub_eq_add_neg, delete,
    dropVersion, db, withDb, bind, Except.bind, pure,
    Except.pure]

theorem foldlM_removeRecord_ok [Blake2b] (s : GroupSession) (h : ∀ k ∈ keys, k.Encodable) :
    keys.foldlM removeRecord s = .ok { s with
      storage := keys.foldl dropVersion s.storage
      deltas := keys.foldl (fun m k => addCell m k (-DigestCell.of k)) s.deltas } := by
  induction keys generalizing s with
  | nil => rfl
  | cons key keys ih =>
    rw [foldlM_cons, removeRecord_ok s (h key (by simp))]
    exact ih _ fun k hk => h k (by simp [hk])

theorem remove_cases [Blake2b] {dryRun : Bool} {result : Nat × Nat} (h : s.remove keys dryRun = .ok (result, s')) :
    ∃ candidates : List Key, candidates.Nodup ∧ (∀ k ∈ candidates, k ∈ keys ∧ k.Encodable ∧
        ∃ value, s.storage.tags.get (k.encode .tags) = some value ∧ ownedTagValue value) ∧
      (dryRun = true ∧ s' = s ∨ dryRun = false ∧ ∃ refs s₁,
        s.unknownCells candidates = .ok refs ∧ s.loadCells refs = .ok s₁ ∧ s' = { s₁ with
          storage := candidates.foldl dropVersion s₁.storage
          deltas := candidates.foldl (fun m k => addCell m k (-DigestCell.of k)) s₁.deltas }) := by
  simp only [remove, bind_eq_ok] at h
  obtain ⟨found, hfound, h⟩ := h
  have hsub := reduceOption_sublist hfound
  have hmem (k : Key) (hk : k ∈ found.reduceOption.map Prod.fst) : k ∈ keys ∧ k.Encodable ∧
      ∃ value, s.storage.tags.get (k.encode .tags) = some value ∧ ownedTagValue value := by
    refine ⟨mem_eraseDups.mp (hsub.subset hk), ?_⟩
    obtain ⟨e, he, rfl⟩ := mem_map.mp hk
    obtain ⟨k', _, hr⟩ := exists_of_mem_mapM_right hfound (reduceOption_mem_iff.mp he)
    obtain ⟨rfl, hx⟩ := removable_eq_some hr
    exact hx
  refine ⟨found.reduceOption.map Prod.fst, (Sequence.nodup_eraseDups keys).sublist hsub, hmem, ?_⟩
  cases dryRun with
  | true =>
    simp only [if_true, pure_eq_ok, Prod.mk.injEq] at h
    exact .inl ⟨rfl, h.2.symm⟩
  | false =>
    simp only [Bool.false_eq_true, if_false, bind_eq_ok, pure_eq_ok, Prod.mk.injEq, removeRecords] at h
    obtain ⟨s₂, ⟨refs, hrefs, s₁, hl, hf⟩, _, rfl⟩ := h
    rw [foldlM_removeRecord_ok s₁ fun k hk => (hmem k hk).2.1] at hf
    exact .inr ⟨rfl, refs, s₁, hrefs, hl, (Except.ok.inj hf).symm⟩

theorem writeCell_eq (g : GroupStorage) (u : Bytes × Option Bytes) :
    (writeCell g u).logs = g.logs ∧ (writeCell g u).tags = g.tags ∧
      ∀ ref, (writeCell g u).metadata.get ref = if ref = u.1 then u.2 else g.metadata.get ref := by
  obtain ⟨key, value⟩ := u
  cases value with
  | none => exact ⟨rfl, rfl, fun ref => get_erase g.metadata key ref⟩
  | some v => exact ⟨rfl, rfl, fun ref => get_insert g.metadata key ref v⟩

theorem writeCells_eq {l : List (Bytes × Option Bytes)} {f : Bytes → Option Bytes}
    (hf : ∀ u ∈ l, u.2 = f u.1) (g : GroupStorage) :
    (l.foldl writeCell g).logs = g.logs ∧ (l.foldl writeCell g).tags = g.tags ∧
      ∀ ref, (l.foldl writeCell g).metadata.get ref =
        if ref ∈ l.map Prod.fst then f ref else g.metadata.get ref := by
  induction l generalizing g with
  | nil => exact ⟨rfl, rfl, fun ref => by simp⟩
  | cons u l ih =>
    obtain ⟨hlogs, htags, hmeta⟩ := ih (fun v hv => hf v (by simp [hv])) (writeCell g u)
    obtain ⟨hlogs', htags', hmeta'⟩ := writeCell_eq g u
    refine ⟨hlogs.trans hlogs', htags.trans htags', ?_⟩
    intro ref
    rw [foldl_cons, hmeta, hmeta', map_cons]
    by_cases hr : ref = u.1
    · simp [hr, hf u (by simp)]
    · simp only [hr, if_false, mem_cons, false_or]

theorem encode_of_mapM_toBytes {refs : List Bytes} (h : obligations.mapM toBytes = .ok refs) :
    (∀ o ∈ obligations, o.key.Encodable) ∧ refs = obligations.map encode := by
  refine ⟨?_, mapM_ok_eq_map (fun o _ b hb => (toBytes_eq_ok.mp hb).2) h⟩
  intro o ho
  obtain ⟨b, _, hb⟩ := exists_of_mem_mapM h ho
  exact (toBytes_eq_ok.mp hb).1

theorem putObligations_cases (h : s.putObligations obligations = .ok s') :
    (∀ o ∈ obligations, o.key.Encodable) ∧ s'.deltas = s.deltas ∧ s'.stored = s.stored ∧
      s'.storage.logs = s.storage.logs ∧ s'.storage.tags = s.storage.tags ∧ ∀ ref, s'.storage.metadata.get ref =
        if ref ∈ obligations.map encode then some []
        else s.storage.metadata.get ref := by
  simp only [putObligations, bind_eq_ok, pure_eq_ok] at h
  obtain ⟨refs, hrefs, rfl⟩ := h
  obtain ⟨hk, rfl⟩ := encode_of_mapM_toBytes hrefs
  have hw := writeCells_eq (l := (obligations.map encode).map fun ref => (ref, some []))
    (f := fun _ => some []) (by simp) s.storage
  rw [foldl_map, map_map] at hw
  simp only [Function.comp_def, map_id'] at hw
  exact ⟨hk, rfl, rfl, hw⟩

theorem removeObligations_cases (h : s.removeObligations obligations = .ok s') :
    (∀ o ∈ obligations, o.key.Encodable) ∧ s'.deltas = s.deltas ∧ s'.stored = s.stored ∧
      s'.storage.logs = s.storage.logs ∧ s'.storage.tags = s.storage.tags ∧ ∀ ref, s'.storage.metadata.get ref =
        if ref ∈ obligations.map encode then none
        else s.storage.metadata.get ref := by
  simp only [removeObligations, bind_eq_ok, pure_eq_ok] at h
  obtain ⟨refs, hrefs, rfl⟩ := h
  obtain ⟨hk, rfl⟩ := encode_of_mapM_toBytes hrefs
  have hw := writeCells_eq (l := (obligations.map encode).map fun ref => (ref, none))
    (f := fun _ => none) (by simp) s.storage
  rw [foldl_map, map_map] at hw
  simp only [Function.comp_def, map_id'] at hw
  exact ⟨hk, rfl, rfl, hw⟩

theorem update_eq_ok {e : Bytes × DigestCell} {u : Bytes × Option Bytes} (h : s.update e = .ok u) :
    u.1 = e.1 ∧ ∃ c, s.stored.get e.1 = some c ∧
      (c + e.2).Encodable ∧ u.2 = if (c + e.2).isEmpty then none else some (c + e.2).encode := by
  unfold update at h
  split at h
  · cases h
  · rename_i c hc
    split at h
    · rename_i he
      cases h
      refine ⟨rfl, c, hc, ?_, by simp [he]⟩
      rw [DigestCell.isEmpty_iff.mp he]
      exact ⟨le_refl _, by decide⟩
    · rename_i he
      simp only [bind_eq_ok, pure_eq_ok, DigestCell.toBytes_eq_ok] at h
      obtain ⟨_, ⟨hfit, rfl⟩, rfl⟩ := h
      exact ⟨rfl, c, hc, hfit, by simp [he]⟩

theorem flush_cases (h : s.flush = .ok s') : s'.deltas = s.deltas ∧ s'.stored = s.stored ∧
      s'.storage.logs = s.storage.logs ∧ s'.storage.tags = s.storage.tags ∧ (∀ ref, s.deltas.get ref = none →
        s'.storage.metadata.get ref = s.storage.metadata.get ref) ∧
      ∀ ref d, s.deltas.get ref = some d → ∃ c, s.stored.get ref = some c ∧ (c + d).Encodable ∧
        s'.storage.metadata.get ref = if (c + d).isEmpty then none else some (c + d).encode := by
  simp only [flush, bind_eq_ok, pure_eq_ok] at h
  obtain ⟨updates, hu, rfl⟩ := h
  let f (ref : Bytes) : Option Bytes :=
    let c := (s.stored.get ref).getD 0 + (s.deltas.get ref).getD 0
    if c.isEmpty then none else some c.encode
  have hspec (u : Bytes × Option Bytes) (hm : u ∈ updates) :
      u.2 = f u.1 ∧ s.deltas.get u.1 ≠ none := by
    obtain ⟨e, he, hup⟩ := exists_of_mem_mapM_right hu hm
    obtain ⟨hk, c, hc, _, hval⟩ := update_eq_ok hup
    have hd : s.deltas.get e.1 = some e.2 := get_eq_some.mpr he
    rw [hk, hval]
    simp [f, hc, hd]
  obtain ⟨hlogs, htags, hmeta⟩ := writeCells_eq (fun u hm => (hspec u hm).1) s.storage
  refine ⟨rfl, rfl, hlogs, htags, ?_, ?_⟩
  · intro ref hn
    rw [hmeta, if_neg]
    intro hm
    obtain ⟨u, hu', rfl⟩ := mem_map.mp hm
    exact (hspec u hu').2 hn
  · intro ref d hd
    obtain ⟨u, hm, hup⟩ := exists_of_mem_mapM hu (get_eq_some.mp hd)
    obtain ⟨hk, c, hc, hfit, hval⟩ := update_eq_ok hup
    refine ⟨c, hc, hfit, ?_⟩
    rw [hmeta, if_pos (mem_map.mpr ⟨u, hm, hk⟩)]
    simp [f, hc, hd]

end GroupSession

theorem session_cases [Blake2b] {commit : Except PyError Unit} {g' : GroupStorage} {r : Except PyError α}
    (h : session body commit g = (r, g')) :
    (∃ e, r = .error e ∧ g' = g) ∨ ∃ a s s', r = .ok a ∧ body (.start g) = .ok (a, s) ∧
      s.flush = .ok s' ∧ g' = s'.storage := by
  unfold session at h
  split at h
  · rename_i a g₁ hok
    simp only [bind_eq_ok, pure_eq_ok] at hok
    obtain ⟨⟨a', s⟩, hbody, s', hflush, _, _, hres⟩ := hok
    cases hres
    cases h
    exact .inr ⟨_, s, s', rfl, hbody, hflush, rfl⟩
  · cases h
    exact .inl ⟨_, rfl, rfl⟩

theorem session_ok [Blake2b] {a : α} (hb : body (.start g) = .ok (a, s)) (hf : s.flush = .ok s') :
    session body (.ok ()) g = (.ok a, s'.storage) := by
  simp only [session, hb, hf, bind, Except.bind, pure, Except.pure]

theorem Transaction.body_eq_ok {t : Transaction Call} (h : t.body exec s = .ok (a, s')) :
    t.calls.foldlM exec s = .ok s' := by
  simp only [Transaction.body, bind_eq_ok] at h
  obtain ⟨s₁, hcalls, h⟩ := h
  cases hraised : t.raised with
  | some e => simp [hraised] at h
  | none =>
    simp only [hraised, pure_eq_ok, Prod.mk.injEq] at h
    exact h.2 ▸ hcalls

theorem Transaction.body_invariant (t : Transaction Call) {P : GroupSession → Prop}
    (hstep : ∀ s c s', P s → exec s c = .ok s' → P s') (hs : P s) (h : t.body exec s = .ok (a, s')) : P s' :=
  foldlM_invariant (fun s c s' _ => hstep s c s') hs (Transaction.body_eq_ok h)

end Tourillon
