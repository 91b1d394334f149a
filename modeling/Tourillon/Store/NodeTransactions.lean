import Tourillon.Store.Ledger

namespace Tourillon

open Exceptional TopVersions GroupSessionManager GroupSession ObligationKey List

structure Faults where
  point : Nat → Except PyError Unit
  commit : Except PyError Unit

structure Added (node : String) (records : List Record) (obligations : List ObligationKey)
    (g g' : GroupStorage) : Prop where
  clean : ∀ r ∈ records, CleanRecord r
  logs : g'.logs = (records.foldl GroupStorage.addVersion g).logs
  tags : g'.tags = (records.foldl GroupStorage.addVersion g).tags
  foreign : ∀ o ∈ obligations, o.target ≠ node ∧ ∃ r ∈ records, r.key = o.key
  owes : ∀ o, g'.Owes o ↔ g.Owes o ∨ o ∈ obligations

structure Dropped (p : RetentionPolicy) (keys : List Key) (g g' : GroupStorage) : Prop where
  encodable : ∀ k ∈ keys, k.Encodable
  logs : g'.logs = (keys.foldl GroupStorage.dropVersion g).logs
  tags : g'.tags = (keys.foldl GroupStorage.dropVersion g).tags
  kept : ∀ k ∈ g.held, Retained Key.newerThan p.versions g'.held k
  owes : ∀ o, g'.Owes o ↔ g.Owes o

structure Forgot (obligations : List ObligationKey) (g g' : GroupStorage) : Prop where
  logs : g'.logs = g.logs
  tags : g'.tags = g.tags
  owes : ∀ o, g'.Owes o ↔ g.Owes o ∧ o ∉ obligations

def obligationsFor (node : String) (record : Record) (targets : List String) :
    Except PyError (List ObligationKey) :=
  (targets.eraseDups.filter fun target => target ≠ node).mapM fun target => make target record.key

section Bodies

variable [Blake2b] {obligations : List ObligationKey} {s s' : GroupSession} {g : GroupStorage} {record : Record}

def localWrite (f : Faults) (record : Record) (g : GroupStorage) : Except PyError Record × GroupStorage :=
  if !record.owned then (.error (.valueError "replicated records must be LIVE or TOMBSTONE"), g)
  else session (fun s => do
    f.point 0
    let (_, s) ← s.put record
    f.point 1
    return (record, s)) f.commit g

def oblige (f : Faults) (node : String) (record : Record) (targets : List String) (g : GroupStorage) :
    Except PyError (List ObligationKey) × GroupStorage :=
  match obligationsFor node record targets with
  | .error e => (.error e, g)
  | .ok obligations => session (fun s => do
      f.point 0
      let (_, s) ← s.put record
      f.point 1
      let s ← s.putObligations obligations
      f.point 2
      return (obligations, s)) f.commit g

def hint (f : Faults) (node : String) (record : Record) (intent : String) (g : GroupStorage) :
    Except PyError (List ObligationKey) × GroupStorage :=
  if !record.owned then (.error (.valueError "hint requires a LIVE or TOMBSTONE record"), g)
  else oblige f node record [intent] g

def applyRecords (p : RetentionPolicy) (f : Faults) (records : List Record) (g : GroupStorage) :
    Except PyError (List WriteDisposition) × GroupStorage :=
  session (fun s => do
    f.point 0
    let (outcomes, s) ← p.apply s records
    f.point 1
    return (outcomes, s)) f.commit g

def collectBatch (p : RetentionPolicy) (f : Faults) (keys : List Key) (dryRun : Bool)
    (g : GroupStorage) : Except PyError (Nat × Nat) × GroupStorage :=
  session (fun s => do
    f.point 0
    let (result, s) ← p.collect s keys dryRun
    f.point 1
    return (result, s)) f.commit g

def forgetObligations (f : Faults) (obligations : List ObligationKey) (g : GroupStorage) :
    Except PyError Unit × GroupStorage :=
  session (fun s => do
    f.point 0
    let s ← s.removeObligations obligations
    f.point 1
    return ((), s)) f.commit g

theorem putMany_storage {records : List Record} {written : List Bool} (h : s.putMany records = .ok (written, s')) :
    (∀ r ∈ records, r.key.Encodable) ∧ s'.storage = records.foldl GroupStorage.addVersion s.storage := by
  obtain ⟨hk, _, refs, s₁, _, hl, rfl⟩ := putMany_cases h
  obtain ⟨_, rfl⟩ := loadCells_cases hl
  exact ⟨fun r hr => (hk r hr).1, rfl⟩

theorem remove_storage {keys : List Key} {dryRun : Bool} {result : Nat × Nat}
    (h : s.remove keys dryRun = .ok (result, s')) : ∃ dropped : List Key, (∀ k ∈ dropped, k ∈ keys ∧ k.Encodable) ∧
      s'.storage = dropped.foldl GroupStorage.dropVersion s.storage := by
  obtain ⟨candidates, _, hk, ⟨_, rfl⟩ | ⟨_, refs, s₁, _, hl, rfl⟩⟩ := remove_cases h
  · exact ⟨[], nofun, rfl⟩
  · obtain ⟨_, rfl⟩ := loadCells_cases hl
    exact ⟨candidates, fun k hm => ⟨(hk k hm).1, (hk k hm).2.1⟩, rfl⟩

theorem owes_flush (h : SessionExact s) (hf : s.flush = .ok s') (o : ObligationKey) :
    s'.storage.Owes o ↔ s.storage.Owes o := by
  obtain ⟨_, _, _, _, hkeep, _⟩ := flush_cases hf
  have hnone : s.deltas.get o.encode = none := by
    by_contra hsome
    exact not_isDigestRef_obligation o (h.digests _ (h.loaded _ hsome))
  rw [GroupStorage.Owes, GroupStorage.Owes, hkeep _ hnone]

theorem session_rule {α : Type} {body : GroupSession → Except PyError (α × GroupSession)}
    {commit : Except PyError Unit} {R : Prop} (h : Clean g)
    (hbody : ∀ a s, CleanSession (.start g) → body (.start g) = .ok (a, s) → CleanSession s ∧
      ((session body commit g).1 = .ok a → (session body commit g).2.logs = s.storage.logs →
        (session body commit g).2.tags = s.storage.tags →
        (∀ o, (session body commit g).2.Owes o ↔ s.storage.Owes o) → R)) :
    Clean (session body commit g).2 ∧ ((∃ e, session body commit g = (.error e, g)) ∨ R) := by
  have hstart : CleanSession (.start g) := ⟨h.toSound, sessionExact_start h.toDigestExact⟩
  refine ⟨(clean_session h (fun a s hs hb => (hbody a s hs hb).1) (Prod.eta _).symm).1, ?_⟩
  rcases session_cases (Prod.eta (session body commit g)).symm with
    ⟨e, hr, hg⟩ | ⟨a, s, s', hr, hb, hf, hg⟩
  · exact .inl ⟨e, Prod.ext hr hg⟩
  · obtain ⟨_, _, hl, ht, _⟩ := flush_cases hf
    obtain ⟨hclean, hdone⟩ := hbody a s hstart hb
    refine .inr (hdone hr ?_ ?_ ?_)
    · rw [hg, hl]
    · rw [hg, ht]
    · intro o
      rw [hg]
      exact owes_flush hclean.exact hf o

theorem CleanSession.putObligations (h : CleanSession s) (hp : s.putObligations obligations = .ok s') :
    CleanSession s' := by
  obtain ⟨_, _, _, hl, ht, _⟩ := putObligations_cases hp
  exact ⟨h.sound.congr hl ht,
    sessionExact_run h.exact (show SessionCall.run s (.putObligations obligations) = .ok s' from hp)⟩

theorem CleanSession.removeObligations (h : CleanSession s) (hp : s.removeObligations obligations = .ok s') :
    CleanSession s' := by
  obtain ⟨_, _, _, hl, ht, _⟩ := removeObligations_cases hp
  exact ⟨h.sound.congr hl ht,
    sessionExact_run h.exact (show SessionCall.run s (.removeObligations obligations) = .ok s' from hp)⟩

omit [Blake2b] in
theorem owes_addVersions (records : List Record) (g : GroupStorage) (o : ObligationKey) :
    (records.foldl GroupStorage.addVersion g).Owes o ↔ g.Owes o := by
  rw [GroupStorage.Owes, GroupStorage.Owes, GroupStorage.foldl_addVersion_metadata]

omit [Blake2b] in
theorem owes_dropVersions (keys : List Key) (g : GroupStorage) (o : ObligationKey) :
    (keys.foldl GroupStorage.dropVersion g).Owes o ↔ g.Owes o := by
  rw [GroupStorage.Owes, GroupStorage.Owes, GroupStorage.foldl_dropVersion_metadata]

omit [Blake2b] in
theorem owes_putObligations (h : s.putObligations obligations = .ok s') (o : ObligationKey) :
    s'.storage.Owes o ↔ s.storage.Owes o ∨ o ∈ obligations := by
  obtain ⟨hk, _, _, _, _, hm⟩ := putObligations_cases h
  have hin : o.key.Encodable → (o.encode ∈ obligations.map encode ↔ o ∈ obligations) := by
    intro ho
    constructor
    · intro hmem
      obtain ⟨o', ho', heq⟩ := mem_map.mp hmem
      rwa [← encode_inj (hk o' ho') ho heq]
    · exact fun hmem => mem_map_of_mem hmem
  simp only [GroupStorage.Owes, hm]
  constructor
  · rintro ⟨ho, hsome⟩
    rcases em (o ∈ obligations) with hmem | hmem
    · exact .inr hmem
    · rw [if_neg (by rwa [hin ho])] at hsome
      exact .inl ⟨ho, hsome⟩
  · rintro (⟨ho, hsome⟩ | hmem)
    · refine ⟨ho, ?_⟩
      split
      · rfl
      · exact hsome
    · refine ⟨hk o hmem, ?_⟩
      rw [if_pos ((hin (hk o hmem)).mpr hmem)]
      rfl

omit [Blake2b] in
theorem owes_removeObligations (h : s.removeObligations obligations = .ok s') (o : ObligationKey) :
    s'.storage.Owes o ↔ s.storage.Owes o ∧ o ∉ obligations := by
  obtain ⟨hk, _, _, _, _, hm⟩ := removeObligations_cases h
  simp only [GroupStorage.Owes, hm]
  constructor
  · rintro ⟨ho, hsome⟩
    split at hsome
    · cases hsome
    · rename_i hnot
      exact ⟨⟨ho, hsome⟩, fun hmem => hnot (mem_map_of_mem hmem)⟩
  · rintro ⟨⟨ho, hsome⟩, hnot⟩
    refine ⟨ho, ?_⟩
    rw [if_neg]
    · exact hsome
    · intro hmem
      obtain ⟨o', ho', heq⟩ := mem_map.mp hmem
      exact hnot (encode_inj (hk o' ho') ho heq ▸ ho')

omit [Blake2b] in
theorem mem_obligationsFor {node : String} {targets : List String}
    (h : obligationsFor node record targets = .ok obligations) :
    (∀ o ∈ obligations, o.target ≠ node ∧ o.target ∈ targets ∧ o.key = record.key) ∧
      ∀ target ∈ targets, target ≠ node → ∃ o ∈ obligations, o.target = target ∧ o.key = record.key := by
  constructor
  · intro o ho
    obtain ⟨target, htarget, hmake⟩ := exists_of_mem_mapM_right h ho
    obtain ⟨rfl, hkey⟩ := make_eq_ok hmake
    obtain ⟨hin, hne⟩ := mem_filter.mp htarget
    exact ⟨by simpa using hne, mem_eraseDups.mp hin, hkey⟩
  · intro target htarget hne
    have hmem : target ∈ targets.eraseDups.filter fun t => t ≠ node :=
      mem_filter.mpr ⟨mem_eraseDups.mpr htarget, by simpa using hne⟩
    obtain ⟨o, ho, hmake⟩ := exists_of_mem_mapM h hmem
    exact ⟨o, ho, make_eq_ok hmake⟩

omit [Blake2b] in
theorem added_nothing (node : String) (g : GroupStorage) : Added node [] [] g g where
  clean := nofun
  logs := rfl
  tags := rfl
  foreign := nofun
  owes o := by simp

theorem start_put (h : Clean g) (hr : Storable record) {written : Bool}
    (hp : (start g).put record = .ok (written, s)) :
    CleanSession s ∧ CleanRecord record ∧ s.storage = g.addVersion record := by
  simp only [put, bind_eq_ok, pure_eq_ok, Prod.mk.injEq] at hp
  obtain ⟨⟨flags, s₁⟩, hmany, _, rfl⟩ := hp
  obtain ⟨hk, hstorage⟩ := putMany_storage hmany
  have hclean := hr.clean (hk record (mem_singleton.mpr rfl))
  refine ⟨?_, hclean, hstorage⟩
  refine CleanSession.putMany ⟨h.toSound, sessionExact_start h.toDigestExact⟩ ?_ hmany
  intro r hin
  rw [mem_singleton.mp hin]
  exact hclean

omit [Blake2b] in
theorem added_versions {records : List Record} {g' stored : GroupStorage} (node : String)
    (hr : ∀ r ∈ records, CleanRecord r) (hstored : stored = records.foldl GroupStorage.addVersion g)
    (hl : g'.logs = stored.logs) (ht : g'.tags = stored.tags) (ho : ∀ o, g'.Owes o ↔ stored.Owes o) :
    Added node records [] g g' := by
  subst hstored
  refine ⟨hr, hl, ht, forall_mem_nil _, ?_⟩
  intro o
  rw [ho, owes_addVersions]
  simp

theorem localWrite_spec (f : Faults) (node : String) (h : Clean g) (hr : Storable record) :
    Clean (localWrite f record g).2 ∧ ((∃ e, localWrite f record g = (.error e, g)) ∨
        (localWrite f record g).1 = .ok record ∧ Added node [record] [] g (localWrite f record g).2) := by
  unfold localWrite
  simp only [hr.owned, Bool.not_true, Bool.false_eq_true, if_false]
  refine session_rule h ?_
  intro a s _ hb
  simp only [bind_eq_ok, pure_eq_ok, Prod.mk.injEq] at hb
  obtain ⟨_, _, ⟨written, s₁⟩, hp, _, _, rfl, rfl⟩ := hb
  obtain ⟨hclean, hrecord, hstorage⟩ := start_put h hr hp
  refine ⟨hclean, fun hok hl ht ho => ⟨hok, added_versions node ?_ hstorage hl ht ho⟩⟩
  intro r hin
  rwa [mem_singleton.mp hin]

theorem oblige_spec (f : Faults) (node : String) (targets : List String) (h : Clean g) (hr : Storable record) :
    Clean (oblige f node record targets g).2 ∧ ((∃ e, oblige f node record targets g = (.error e, g)) ∨
        ∃ obligations, (oblige f node record targets g).1 = .ok obligations ∧
          obligationsFor node record targets = .ok obligations ∧
          Added node [record] obligations g (oblige f node record targets g).2) := by
  unfold oblige
  split
  · rename_i e _
    exact ⟨h, .inl ⟨e, rfl⟩⟩
  · rename_i obligations hobligations
    refine session_rule h ?_
    intro a s _ hb
    simp only [bind_eq_ok, pure_eq_ok, Prod.mk.injEq] at hb
    obtain ⟨_, _, ⟨written, s₁⟩, hp, _, _, s₂, hput, _, _, rfl, rfl⟩ := hb
    obtain ⟨hclean, hrecord, hstorage⟩ := start_put h hr hp
    obtain ⟨_, _, _, hlogs, htags, _⟩ := putObligations_cases hput
    refine ⟨hclean.putObligations hput, fun hok hl ht ho => ⟨obligations, hok, hobligations, ?_, ?_, ?_, ?_, ?_⟩⟩
    · intro r hin
      rwa [mem_singleton.mp hin]
    · rw [hl, hlogs, hstorage]
      rfl
    · rw [ht, htags, hstorage]
      rfl
    · intro o hin
      obtain ⟨hne, _, hkey⟩ := (mem_obligationsFor hobligations).1 o hin
      exact ⟨hne, record, mem_singleton.mpr rfl, hkey.symm⟩
    · intro o
      rw [ho, owes_putObligations hput, hstorage]
      exact or_congr_left (owes_addVersions [record] g o)

theorem applyRecords_spec (p : RetentionPolicy) (f : Faults) (node : String) {records : List Record}
    (h : Clean g) (hr : ∀ r ∈ records, Storable r) : Clean (applyRecords p f records g).2 ∧
      ((∃ e, applyRecords p f records g = (.error e, g)) ∨
        ∃ outcomes selected, (applyRecords p f records g).1 = .ok outcomes ∧ (∀ r ∈ selected, r ∈ records) ∧
          Added node selected [] g (applyRecords p f records g).2) := by
  unfold applyRecords
  refine session_rule h ?_
  intro a s hstart hb
  simp only [bind_eq_ok, pure_eq_ok, Prod.mk.injEq] at hb
  obtain ⟨_, _, ⟨outcomes, s₁⟩, hp, _, _, rfl, rfl⟩ := hb
  obtain ⟨selected, inserted, hsel, hput, _⟩ := apply_cases h.toHolding hp
  obtain ⟨hk, hstorage⟩ := putMany_storage hput
  have hclean (r : Record) (hin : r ∈ selected) : CleanRecord r := (hr r (hsel r hin)).clean (hk r hin)
  exact ⟨hstart.putMany hclean hput, fun hok hl ht ho =>
    ⟨outcomes, selected, hok, hsel, added_versions node hclean hstorage hl ht ho⟩⟩

theorem collectBatch_spec (p : RetentionPolicy) (f : Faults) (keys : List Key) (dryRun : Bool) (h : Clean g) :
    Clean (collectBatch p f keys dryRun g).2 ∧ ((∃ e, collectBatch p f keys dryRun g = (.error e, g)) ∨
        ∃ result dropped, (collectBatch p f keys dryRun g).1 = .ok result ∧
          (∀ k ∈ dropped, k ∈ keys) ∧ Dropped p dropped g (collectBatch p f keys dryRun g).2) := by
  unfold collectBatch
  refine session_rule h ?_
  intro a s hstart hb
  simp only [bind_eq_ok, pure_eq_ok, Prod.mk.injEq] at hb
  obtain ⟨_, _, ⟨result, s₁⟩, hp, _, _, rfl, rfl⟩ := hb
  obtain ⟨candidates, hrem, hsub, hcov⟩ := collect_cases h.toHolding hp
  obtain ⟨dropped, hdropped, hstorage⟩ := remove_storage hrem
  have henc : ∀ k ∈ dropped, k.Encodable := fun k hk => (hdropped k hk).2
  refine ⟨hstart.remove hrem, fun hok hl ht ho => ⟨result, dropped, hok, fun k hk => hsub k (hdropped k hk).1,
    henc, ?_, ?_, ?_, ?_⟩⟩
  · rw [hl, hstorage]
    rfl
  · rw [ht, hstorage]
    rfl
  · intro k hk
    rw [held_congr ht, hstorage, (dropVersions_held (g := (start g).storage) henc h.toHolding).2]
    refine Retained.sdiff Key.newerThan_trans (.inl hk) (hcov dropped.toFinset ?_)
    intro d hd
    exact (hdropped d (mem_toFinset.mp hd)).1
  · intro o
    rw [ho, hstorage]
    exact owes_dropVersions dropped g o

theorem forgetObligations_spec (f : Faults) (obligations : List ObligationKey) (h : Clean g) :
    Clean (forgetObligations f obligations g).2 ∧ ((∃ e, forgetObligations f obligations g = (.error e, g)) ∨
        (forgetObligations f obligations g).1 = .ok () ∧
          Forgot obligations g (forgetObligations f obligations g).2) := by
  unfold forgetObligations
  refine session_rule h ?_
  intro a s hstart hb
  simp only [bind_eq_ok, pure_eq_ok, Prod.mk.injEq] at hb
  obtain ⟨_, _, s₁, hp, _, _, _, rfl⟩ := hb
  obtain ⟨_, _, _, hlogs, htags, _⟩ := removeObligations_cases hp
  refine ⟨hstart.removeObligations hp, fun hok hl ht ho => ⟨hok, hl.trans hlogs, ht.trans htags, ?_⟩⟩
  intro o
  rw [ho]
  exact owes_removeObligations hp o

end Bodies

end Tourillon
