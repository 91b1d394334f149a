import Tourillon.Storage.Clean

namespace Tourillon

open Endian Exceptional GroupSession List

variable {α : Type} {encodable : α → Prop} {encode : α → Bytes} {given : List α} {b : Bytes}

inductive StorageCall where
  | session (call : SessionCall)
  | apply (policy : RetentionPolicy) (records : List Record)
  | collect (policy : RetentionPolicy) (keys : List Key) (dryRun : Bool)

def SessionCall.removals : SessionCall → List Key
  | .remove keys _ => keys
  | _ => []

def SessionCall.obligations : SessionCall → List ObligationKey
  | .putObligations obligations => obligations
  | .removeObligations obligations => obligations
  | _ => []

namespace StorageCall

def keys : StorageCall → List Key
  | .session call => (call.records.map fun r => r.key) ++ call.removals
  | .apply _ records => records.map fun r => r.key
  | .collect _ keys _ => keys

def obligations : StorageCall → List ObligationKey
  | .session call => call.obligations
  | _ => []

def run [Blake2b] (s : GroupSession) : StorageCall → Except PyError GroupSession
  | .session call => call.run s
  | .apply policy records => do
    let (_, s) ← policy.apply s records
    return s
  | .collect policy keys dryRun => do
    let (_, s) ← policy.collect s keys dryRun
    return s

end StorageCall

structure Turned (g g' : GroupStorage) (k : Key) : Prop where
  encodable : k.Encodable
  changed : (g.tags.get (k.encode .tags) = none ∧
      ∃ value, g'.tags.get (k.encode .tags) = some value ∧ ownedTagValue value = true) ∨
    ((∃ value, g.tags.get (k.encode .tags) = some value ∧ ownedTagValue value = true) ∧
      g'.tags.get (k.encode .tags) = none)

def Spells {α : Type} (encodable : α → Prop) (encode : α → Bytes) (given : List α) (b : Bytes) : Prop :=
  ∃ a ∈ given, encodable a ∧ b = encode a

theorem Spells.mono {given' : List α} (h : Spells encodable encode given b) (hsub : ∀ a ∈ given, a ∈ given') :
    Spells encodable encode given' b := by
  obtain ⟨a, ha, hrest⟩ := h
  exact ⟨a, hsub a ha, hrest⟩

theorem not_spells {a : α} (hinj : ∀ a', encodable a' → encode a = encode a' → a = a') (ha : a ∉ given) :
    ¬ Spells encodable encode given (encode a) := by
  rintro ⟨a', ha', henc, heq⟩
  exact ha (hinj a' henc heq ▸ ha')

def SpellsLog (keys : List Key) (b : Bytes) : Prop := Spells Key.Encodable (Key.encode .logs) keys b

def SpellsTag (keys : List Key) (b : Bytes) : Prop := Spells Key.Encodable (Key.encode .tags) keys b

def SpellsObligation (obligations : List ObligationKey) (b : Bytes) : Prop :=
  Spells (fun o => o.key.Encodable) ObligationKey.encode obligations b

variable {obligations : List ObligationKey}

theorem not_spellsObligation_of_digest {ref : Bytes} (h : IsDigestRef ref) :
    ¬ SpellsObligation obligations ref := by
  rintro ⟨o, _, _, rfl⟩
  exact not_isDigestRef_obligation o h

structure StepFrame (keys : List Key) (obligations : List ObligationKey) (touched : Key → Prop)
    (s s' : GroupSession) : Prop where
  logs : ∀ b, ¬ SpellsLog keys b → s'.storage.logs.get b = s.storage.logs.get b
  tags : ∀ b, ¬ SpellsTag keys b → s'.storage.tags.get b = s.storage.tags.get b
  grows : ∀ ref, s.deltas.get ref ≠ none → s'.deltas.get ref ≠ none
  deltas : ∀ ref, s'.deltas.get ref ≠ none →
    s.deltas.get ref ≠ none ∨ ∃ k ∈ keys, touched k ∧ ref ∈ cellRefs k
  metadata : ∀ ref, ¬ SpellsObligation obligations ref →
    s'.storage.metadata.get ref = s.storage.metadata.get ref ∨ s'.deltas.get ref ≠ none

theorem StepFrame.refl (keys : List Key) (obligations : List ObligationKey) (touched : Key → Prop)
    (s : GroupSession) : StepFrame keys obligations touched s s :=
  ⟨fun _ _ => rfl, fun _ _ => rfl, fun _ h => h, fun _ h => .inl h, fun _ _ => .inl rfl⟩

variable {s s' : GroupSession}

theorem StepFrame.mono {keys keys' : List Key} {obligations' : List ObligationKey}
    {touched touched' : Key → Prop} (h : StepFrame keys obligations touched s s')
    (hkeys : ∀ k ∈ keys, k ∈ keys') (hobligations : ∀ o ∈ obligations, o ∈ obligations')
    (htouched : ∀ k, touched k → touched' k) : StepFrame keys' obligations' touched' s s' where
  logs b hb := h.logs b fun hin => hb (hin.mono hkeys)
  tags b hb := h.tags b fun hin => hb (hin.mono hkeys)
  grows := h.grows
  deltas ref hne := by
    refine (h.deltas ref hne).imp_right ?_
    rintro ⟨k, hk, hturned, href⟩
    exact ⟨k, hkeys k hk, htouched k hturned, href⟩
  metadata ref hout := h.metadata ref fun hin => hout (hin.mono hobligations)

variable {touched : Key → Prop} {keys : List Key}

theorem StepFrame.trans {s₁ : GroupSession} (h : StepFrame keys obligations touched s s₁)
    (h' : StepFrame keys obligations touched s₁ s') : StepFrame keys obligations touched s s' where
  logs b hb := (h'.logs b hb).trans (h.logs b hb)
  tags b hb := (h'.tags b hb).trans (h.tags b hb)
  grows ref hne := h'.grows ref (h.grows ref hne)
  deltas ref hne := by
    rcases h'.deltas ref hne with hmid | hnew
    · exact h.deltas ref hmid
    · exact .inr hnew
  metadata ref hout := by
    rcases h'.metadata ref hout with hlater | hdelta
    · rcases h.metadata ref hout with hearlier | hdelta
      · exact .inl (hlater.trans hearlier)
      · exact .inr (h'.grows ref hdelta)
    · exact .inr hdelta

variable {g : GroupStorage} {records : List Record}

theorem get_foldl_addVersion (b : Bytes) : (b ∉ (records.map fun r => r.key).map (Key.encode .logs) →
      (records.foldl GroupStorage.addVersion g).logs.get b = g.logs.get b) ∧
    (b ∉ (records.map fun r => r.key).map (Key.encode .tags) →
      (records.foldl GroupStorage.addVersion g).tags.get b = g.tags.get b) := by
  induction records generalizing g with
  | nil => exact ⟨fun _ => rfl, fun _ => rfl⟩
  | cons r records ih =>
    obtain ⟨hlogs, htags⟩ := ih (g := g.addVersion r)
    simp only [map_cons, mem_cons, not_or, foldl_cons]
    constructor
    · rintro ⟨hne, hrest⟩
      rw [hlogs hrest, GroupStorage.addVersion, OrderedMap.get_insertNew, if_neg hne, Option.or_none]
    · rintro ⟨hne, hrest⟩
      rw [htags hrest, GroupStorage.addVersion, OrderedMap.get_insertNew, if_neg hne, Option.or_none]

theorem tags_foldl_addVersion {value : Bytes} (h : g.tags.get b = some value) :
    (records.foldl GroupStorage.addVersion g).tags.get b = some value := by
  induction records generalizing g with
  | nil => exact h
  | cons r records ih =>
    refine ih ?_
    rw [GroupStorage.addVersion, OrderedMap.get_insertNew, h, Option.some_or]

theorem inserted_of_newFlags {r : Record} (h : (r, true) ∈ records.zip (newFlags records g)) :
    g.tags.get (r.key.encode .tags) = none ∧
      (records.foldl GroupStorage.addVersion g).tags.get (r.key.encode .tags) = some r.tag.toBytes := by
  induction records generalizing g with
  | nil => cases h
  | cons q records ih =>
    rw [newFlags, zip_cons_cons] at h
    rcases mem_cons.mp h with heq | hlater
    · obtain ⟨rfl, hflag⟩ := Prod.mk.inj heq
      have habsent : g.tags.get (r.key.encode .tags) = none := by simpa [OrderedMap.contains] using hflag.symm
      have hadded : (g.addVersion r).tags.get (r.key.encode .tags) = some r.tag.toBytes := by
        rw [GroupStorage.addVersion, OrderedMap.get_insertNew, habsent, if_pos rfl, Option.none_or]
      rw [foldl_cons]
      exact ⟨habsent, tags_foldl_addVersion hadded⟩
    · obtain ⟨habsent, hstored⟩ := ih hlater
      refine ⟨?_, hstored⟩
      rw [GroupStorage.addVersion, OrderedMap.get_insertNew] at habsent
      exact (Option.or_eq_none_iff.mp habsent).1

theorem stepFrame_obligations {value : Option Bytes} (hk : ∀ o ∈ obligations, o.key.Encodable)
    (hd : s'.deltas = s.deltas) (hl : s'.storage.logs = s.storage.logs)
    (ht : s'.storage.tags = s.storage.tags) (hm : ∀ ref, s'.storage.metadata.get ref =
      if ref ∈ obligations.map ObligationKey.encode then value else s.storage.metadata.get ref) :
    StepFrame [] obligations touched s s' where
  logs _ _ := by rw [hl]
  tags _ _ := by rw [ht]
  grows _ h := hd ▸ h
  deltas _ h := .inl (hd ▸ h)
  metadata ref hout := by
    refine .inl ((hm ref).trans (if_neg ?_))
    intro hin
    obtain ⟨o, ho, rfl⟩ := mem_map.mp hin
    exact hout ⟨o, ho, hk o ho, rfl⟩

theorem stepFrame_flush (h : s.flush = .ok s') : StepFrame [] [] touched s s' := by
  obtain ⟨hd, _, hl, ht, hkeep, _⟩ := flush_cases h
  refine ⟨fun _ _ => by rw [hl], fun _ _ => by rw [ht], fun _ hne => hd ▸ hne,
    fun _ hne => .inl (hd ▸ hne), ?_⟩
  intro ref _
  by_cases hnone : s.deltas.get ref = none
  · exact .inl (hkeep ref hnone)
  · exact .inr (hd ▸ hnone)

theorem session_metadata (h : StepFrame keys obligations touched (.start g) s) (hf : s.flush = .ok s')
    (ref : Bytes) (hout : ¬ SpellsObligation obligations ref) (hcells : ∀ k, touched k → ref ∉ cellRefs k) :
    s'.storage.metadata.get ref = g.metadata.get ref := by
  obtain ⟨_, _, _, _, hkeep, _⟩ := flush_cases hf
  have hnone : s.deltas.get ref = none := by
    by_contra hne
    rcases h.deltas ref hne with hstart | ⟨k, _, hk, href⟩
    · exact hstart rfl
    · exact hcells k hk href
  rw [hkeep ref hnone]
  exact (h.metadata ref hout).resolve_right fun hne => hne hnone

structure Framed (keys : List Key) (given : List ObligationKey) (touched : Key → Prop)
    (g g' : GroupStorage) : Prop where
  logs : ∀ k b, k ∉ keys → Key.toBytes .logs k = .ok b → g'.get .logs b = g.get .logs b
  tags : ∀ k b, k ∉ keys → Key.toBytes .tags k = .ok b → g'.get .tags b = g.get .tags b
  roots : ∀ pid ref, rootKey pid = .ok ref → (∀ k, touched k → k.pid ≠ pid) →
    g'.get .metadata ref = g.get .metadata ref
  buckets : ∀ pid bucket ref, bucketKey pid bucket = .ok ref →
    (∀ k, touched k → ¬ (k.pid = pid ∧ k.ts.wallMs >>> 22 = bucket)) →
      g'.get .metadata ref = g.get .metadata ref
  obligations : ∀ o b, o ∉ given → ObligationKey.toBytes o = .ok b →
    g'.get .metadata b = g.get .metadata b
  others : ∀ ref, ¬ SpellsObligation given ref → (∀ k, touched k → ref ∉ cellRefs k) →
    g'.get .metadata ref = g.get .metadata ref
  named : ∀ k, touched k → k ∈ keys ∧ k.Encodable

theorem StepFrame.framed {given : List ObligationKey} (h : StepFrame keys given touched (.start g) s)
    (hf : s.flush = .ok s') (hnamed : ∀ k, touched k → k ∈ keys ∧ k.Encodable) :
    Framed keys given touched g s'.storage := by
  have hother := session_metadata h hf
  obtain ⟨_, _, hl, ht, _, _⟩ := flush_cases hf
  constructor
  case named => exact hnamed
  case others => exact hother
  case logs =>
    intro k b hk hb
    obtain ⟨henc, rfl⟩ := Key.toBytes_logs_eq_ok.mp hb
    show s'.storage.logs.get _ = g.logs.get _
    rw [hl]
    exact h.logs _ (not_spells (fun _ henc' => Key.encode_logs_inj henc henc') hk)
  case tags =>
    intro k b hk hb
    obtain ⟨henc, rfl⟩ := Key.toBytes_tags_eq_ok.mp hb
    show s'.storage.tags.get _ = g.tags.get _
    rw [ht]
    exact h.tags _ (not_spells (fun _ henc' => Key.encode_tags_inj henc henc') hk)
  case roots =>
    intro pid ref href hpid
    obtain ⟨hlt, rfl⟩ := rootKey_eq_ok.mp href
    refine hother _ (not_spellsObligation_of_digest rfl) ?_
    intro k hk hin
    exact hpid k hk ((mem_cellRefs_root (hnamed k hk).2 hlt).mp hin)
  case buckets =>
    intro pid bucket ref href hcell
    obtain ⟨⟨hlt, hbucket⟩, rfl⟩ := bucketKey_eq_ok.mp href
    refine hother _ (not_spellsObligation_of_digest rfl) ?_
    intro k hk hin
    exact hcell k hk ((mem_cellRefs_bucket (hnamed k hk).2 hlt hbucket).mp hin)
  case obligations =>
    intro o b ho hb
    obtain ⟨henc, rfl⟩ := ObligationKey.toBytes_eq_ok.mp hb
    refine hother _ (not_spells (fun _ henc' => ObligationKey.encode_inj henc henc') ho) ?_
    intro k _ hin
    exact not_isDigestRef_obligation o (isDigestRef_of_mem_cellRefs hin)

section Steps

variable [Blake2b] {dryRun : Bool} {result : Nat × Nat} {p : RetentionPolicy} {call : StorageCall}
  {calls : List StorageCall}

theorem foldDeltas_grows {rs : List (Record × Bool)} {m : OrderedMap Bytes DigestCell} {ref : Bytes}
    (h : m.get ref ≠ none) : (foldDeltas rs m).get ref ≠ none := by
  intro hnone
  exact h (foldDeltas_get_none hnone).1

variable {s s' : GroupSession}

theorem stepFrame_putMany {written : List Bool} (h : s.putMany records = .ok (written, s')) :
    StepFrame (records.map fun r => r.key) [] (Turned s.storage s'.storage) s s' := by
  obtain ⟨hkeys, rfl, refs, s₁, _, hl, rfl⟩ := putMany_cases h
  obtain ⟨_, rfl⟩ := loadCells_cases hl
  have hspells {ks : Keyspace} {b : Bytes} (hb : b ∈ (records.map fun r => r.key).map (Key.encode ks)) :
      Spells Key.Encodable (Key.encode ks) (records.map fun r => r.key) b := by
    obtain ⟨k, hk, rfl⟩ := mem_map.mp hb
    obtain ⟨r, hr, rfl⟩ := mem_map.mp hk
    exact ⟨r.key, hk, (hkeys r hr).1, rfl⟩
  refine ⟨fun b hb => (get_foldl_addVersion b).1 fun hin => hb (hspells hin),
    fun b hb => (get_foldl_addVersion b).2 fun hin => hb (hspells hin),
    fun ref => foldDeltas_grows, ?_, ?_⟩
  · intro ref hne
    rcases foldDeltas_get_cases hne with hold | ⟨r, hr, howned, href⟩
    · exact .inl hold
    · have hin := (of_mem_zip hr).1
      obtain ⟨habsent, hstored⟩ := inserted_of_newFlags hr
      refine .inr ⟨r.key, mem_map_of_mem hin, ⟨(hkeys r hin).1, .inl ⟨habsent, _, hstored, ?_⟩⟩, href⟩
      rw [ownedTagValue_toBytes]
      exact howned
  · intro ref _
    exact .inl (congrArg (fun m : Db => m.get ref) (GroupStorage.foldl_addVersion_metadata ..))

theorem stepFrame_remove (h : s.remove keys dryRun = .ok (result, s')) :
    StepFrame keys [] (Turned s.storage s'.storage) s s' := by
  obtain ⟨candidates, _, hk, ⟨_, rfl⟩ | ⟨_, refs, s₁, _, hl, rfl⟩⟩ := remove_cases h
  · exact StepFrame.refl ..
  obtain ⟨_, rfl⟩ := loadCells_cases hl
  have hspells {ks : Keyspace} {b : Bytes} (hb : b ∈ candidates.map (Key.encode ks)) :
      Spells Key.Encodable (Key.encode ks) keys b := by
    obtain ⟨k, hin, rfl⟩ := mem_map.mp hb
    exact ⟨k, (hk k hin).1, (hk k hin).2.1, rfl⟩
  refine ⟨?_, ?_, ?_, ?_, ?_⟩
  · intro b hb
    exact (get_foldl_dropVersion b).1.trans (if_neg fun hin => hb (hspells hin))
  · intro b hb
    exact (get_foldl_dropVersion b).2.trans (if_neg fun hin => hb (hspells hin))
  · intro ref hne hnone
    exact hne ((dropDeltas_get candidates s.deltas ref).mp hnone).1
  · intro ref hne
    rw [ne_eq, dropDeltas_get, not_and_or] at hne
    refine hne.imp_right ?_
    simp only [not_forall, not_not, exists_prop]
    rintro ⟨k, hin, href⟩
    obtain ⟨hkey, hencodable, hstored⟩ := hk k hin
    refine ⟨k, hkey, ⟨hencodable, .inr ⟨hstored, ?_⟩⟩, href⟩
    exact (get_foldl_dropVersion _).2.trans (if_pos (mem_map_of_mem hin))
  · intro ref _
    exact .inl (congrArg (fun m : Db => m.get ref) (GroupStorage.foldl_dropVersion_metadata ..))

theorem stepFrame_session {call : SessionCall} (h : call.run s = .ok s') :
    StepFrame ((call.records.map fun r => r.key) ++ call.removals) call.obligations
      (Turned s.storage s'.storage) s s' := by
  cases call with
  | put record =>
    simp only [SessionCall.run, put, bind_eq_ok, pure_eq_ok] at h
    obtain ⟨_, ⟨⟨written, s₁⟩, hp, rfl⟩, rfl⟩ := h
    exact stepFrame_putMany hp
  | putMany records =>
    simp only [SessionCall.run, bind_eq_ok, pure_eq_ok] at h
    obtain ⟨⟨written, s₁⟩, hp, rfl⟩ := h
    exact (stepFrame_putMany hp).mono (fun k hk => mem_append_left _ hk) (nil_subset _) fun _ ht => ht
  | remove keys dryRun =>
    simp only [SessionCall.run, bind_eq_ok, pure_eq_ok] at h
    obtain ⟨⟨result, s₁⟩, hp, rfl⟩ := h
    exact stepFrame_remove hp
  | putObligations obligations =>
    obtain ⟨hk, hd, _, hl, ht, hm⟩ := putObligations_cases h
    exact stepFrame_obligations hk hd hl ht hm
  | removeObligations obligations =>
    obtain ⟨hk, hd, _, hl, ht, hm⟩ := removeObligations_cases h
    exact stepFrame_obligations hk hd hl ht hm
  | flush => exact stepFrame_flush h

theorem stepFrame_apply {ds : List WriteDisposition} (h : p.apply s records = .ok (ds, s')) :
    StepFrame (records.map fun r => r.key) [] (Turned s.storage s'.storage) s s' := by
  simp only [RetentionPolicy.apply, bind_eq_ok, pure_eq_ok, Prod.mk.injEq] at h
  obtain ⟨newest, _, outs, _, ⟨inserted, s₁⟩, hput, _, rfl⟩ := h
  refine (stepFrame_putMany hput).mono ?_ (nil_subset _) fun _ ht => ht
  exact map_subset _ fun r hr => selected_subset hr

theorem stepFrame_collect (h : p.collect s keys dryRun = .ok (result, s')) :
    StepFrame keys [] (Turned s.storage s'.storage) s s' := by
  simp only [RetentionPolicy.collect, bind_eq_ok] at h
  obtain ⟨newest, _, outs, houts, hrem⟩ := h
  refine (stepFrame_remove hrem).mono ?_ nofun fun _ ht => ht
  intro k hk
  exact mem_eraseDups.mp ((zip_filter_cases houts).1 k hk).1

theorem stepFrame_run (h : call.run s = .ok s') :
    StepFrame call.keys call.obligations (Turned s.storage s'.storage) s s' := by
  cases call with
  | session call => exact stepFrame_session h
  | apply policy records =>
    simp only [StorageCall.run, bind_eq_ok, pure_eq_ok] at h
    obtain ⟨⟨ds, s₁⟩, happly, rfl⟩ := h
    exact stepFrame_apply happly
  | collect policy keys dryRun =>
    simp only [StorageCall.run, bind_eq_ok, pure_eq_ok] at h
    obtain ⟨⟨result, s₁⟩, hcollect, rfl⟩ := h
    exact stepFrame_collect hcollect

structure Touched (calls : List StorageCall) (s : GroupSession) (k : Key) : Prop where
  step : ∃ before call after s₁ s₂, calls = before ++ call :: after ∧
    before.foldlM StorageCall.run s = .ok s₁ ∧ call.run s₁ = .ok s₂ ∧
      k ∈ call.keys ∧ Turned s₁.storage s₂.storage k

theorem Touched.cons {s₁ : GroupSession} {k : Key} (hrun : call.run s = .ok s₁) (h : Touched calls s₁ k) :
    Touched (call :: calls) s k := by
  obtain ⟨before, c, after, s₂, s₃, rfl, hbefore, hc, hk⟩ := h.step
  refine ⟨call :: before, c, after, s₂, s₃, rfl, ?_, hc, hk⟩
  rw [foldlM_cons, hrun]
  exact hbefore

theorem stepFrame_calls (h : calls.foldlM StorageCall.run s = .ok s') :
    StepFrame (calls.flatMap StorageCall.keys) (calls.flatMap StorageCall.obligations) (Touched calls s) s s' := by
  induction calls generalizing s with
  | nil =>
    simp only [foldlM_nil, pure_eq_ok] at h
    subst h
    exact StepFrame.refl ..
  | cons call calls ih =>
    simp only [foldlM_cons, bind_eq_ok] at h
    obtain ⟨s₁, hcall, hrest⟩ := h
    have hfirst : StepFrame call.keys call.obligations (Touched (call :: calls) s) s s₁ := by
      have hstep := stepFrame_run hcall
      refine ⟨hstep.logs, hstep.tags, hstep.grows, ?_, hstep.metadata⟩
      intro ref hne
      refine (hstep.deltas ref hne).imp_right ?_
      rintro ⟨k, hk, hturned, href⟩
      exact ⟨k, hk, ⟨[], call, calls, s, s₁, rfl, rfl, hcall, hk, hturned⟩, href⟩
    rw [flatMap_cons, flatMap_cons]
    refine (hfirst.mono ?_ ?_ fun _ ht => ht).trans ((ih hrest).mono ?_ ?_ fun _ ht => ht.cons hcall)
    · exact fun k hk => mem_append_left _ hk
    · exact fun o ho => mem_append_left _ ho
    · exact fun k hk => mem_append_right _ hk
    · exact fun o ho => mem_append_right _ ho

theorem framed_of_session {t : Transaction StorageCall} {g' : GroupStorage}
    (h : t.run StorageCall.run g = (.ok (), g')) :
    Framed (t.calls.flatMap StorageCall.keys) (t.calls.flatMap StorageCall.obligations)
      (Touched t.calls (.start g)) g g' := by
  rcases session_cases h with ⟨e, hr, _⟩ | ⟨_, s, s', _, hb, hf, rfl⟩
  · cases hr
  refine (stepFrame_calls (Transaction.body_eq_ok hb)).framed hf ?_
  intro k hk
  obtain ⟨before, call, after, s₁, s₂, hsplit, _, _, hin, hturned⟩ := hk.step
  refine ⟨mem_flatMap.mpr ⟨call, ?_, hin⟩, hturned.encodable⟩
  rw [hsplit]
  exact mem_append_right _ mem_cons_self

end Steps

end Tourillon
