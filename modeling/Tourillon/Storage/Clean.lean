import Tourillon.Storage.GroupTransactions
import Tourillon.Storage.RetentionHistory

namespace Tourillon

open Endian Exceptional TopVersions GroupSession Transaction List Value

variable {g : GroupStorage} {b : Bytes}

theorem Tag.readable_of_fromBytes {t : Tag} (h : Tag.fromBytes b = .ok t) :
    t.Readable := by
  cases b with
  | nil => simp [Tag.fromBytes] at h
  | cons c rest =>
    simp only [Tag.fromBytes, bind_eq_ok, pure_eq_ok] at h
    obtain ⟨kind, _, payload, hp, rfl⟩ := h
    cases rest with
    | nil =>
      cases hp
      intro _
      rfl
    | cons d rest =>
      simp only [TagPayload.fromBytes, bind_eq_ok, pure_eq_ok] at hp
      obtain ⟨sub, _, rfl⟩ := hp
      intro hn
      cases hn

theorem Value.quorum_of_fromBytes {v : Value} (h : fromBytes b = .ok v) : v.quorumWrite < 256 := by
  cases b with
  | nil => simp [fromBytes] at h
  | cons q data =>
    simp only [fromBytes, make] at h
    split at h
    · cases h
      exact q.toNat_lt
    · cases h

structure CleanRecord (r : Record) : Prop where
  encodable : r.key.Encodable
  owned : r.owned = true
  readable : r.tag.Readable
  quorum : r.value.quorumWrite < 256

structure Sound (g : GroupStorage) : Prop extends Holding g where
  readable : ∀ e ∈ g.tags.entries, ∃ t, Tag.fromBytes e.2 = .ok t
  valued : ∀ e ∈ g.logs.entries, ∃ v, fromBytes e.2 = .ok v

theorem Sound.congr {g' : GroupStorage} (h : Sound g) (hl : g'.logs = g.logs) (ht : g'.tags = g.tags) :
    Sound g' where
  toHolding := h.toHolding.congr hl ht
  readable := ht ▸ h.readable
  valued := hl ▸ h.valued

theorem sound_empty : Sound GroupStorage.empty where
  toHolding := holding_empty
  readable e he := by cases he
  valued e he := by cases he

theorem Sound.addVersion (h : Sound g) {r : Record} (hr : CleanRecord r) : Sound (g.addVersion r) where
  toHolding := h.toHolding.addVersion hr.encodable hr.owned
  readable e he := by
    rcases mem_insertNew he with rfl | he
    · exact ⟨r.tag, Tag.fromBytes_toBytes hr.readable⟩
    · exact h.readable e he
  valued e he := by
    rcases mem_insertNew he with rfl | he
    · exact ⟨r.value, fromBytes_encode hr.quorum⟩
    · exact h.valued e he

theorem Sound.dropVersion (h : Sound g) {key : Key} (hk : key.Encodable) : Sound (g.dropVersion key) where
  toHolding := h.toHolding.dropVersion hk
  readable e he := h.readable e (mem_of_mem_filter he)
  valued e he := h.valued e (mem_of_mem_filter he)

theorem Sound.addVersions {records : List Record} (hr : ∀ r ∈ records, CleanRecord r) (h : Sound g) :
    Sound (records.foldl GroupStorage.addVersion g) := by
  induction records generalizing g with
  | nil => exact h
  | cons r records ih => exact ih (fun r' hr' => hr r' (by simp [hr'])) (h.addVersion (hr r (by simp)))

theorem Sound.dropVersions {keys : List Key} (hk : ∀ k ∈ keys, k.Encodable) (h : Sound g) :
    Sound (keys.foldl GroupStorage.dropVersion g) := by
  induction keys generalizing g with
  | nil => exact h
  | cons key keys ih => exact ih (fun k hkm => hk k (by simp [hkm])) (h.dropVersion (hk key (by simp)))

def SessionCall.records : SessionCall → List Record
  | .put record => [record]
  | .putMany records => records
  | .remove _ _ => []
  | .putObligations _ => []
  | .removeObligations _ => []
  | .flush => []

structure VersionInvariant (allowed : Record → Prop) (P : GroupStorage → Prop) : Prop where
  congr : ∀ {g g' : GroupStorage}, g'.logs = g.logs → g'.tags = g.tags → P g → P g'
  add : ∀ {g : GroupStorage} {r : Record}, allowed r → r.key.Encodable → P g → P (g.addVersion r)
  drop : ∀ {g : GroupStorage} {k : Key}, k.Encodable → P g → P (g.dropVersion k)

namespace VersionInvariant

variable {allowed : Record → Prop} {P : GroupStorage → Prop} {s s' : GroupSession} {g : GroupStorage}
  {records : List Record} {keys : List Key}

theorem adds (h : VersionInvariant allowed P) (hr : ∀ r ∈ records, allowed r ∧ r.key.Encodable) (hg : P g) :
    P (records.foldl GroupStorage.addVersion g) := by
  induction records generalizing g with
  | nil => exact hg
  | cons r records ih =>
    obtain ⟨hallowed, hkey⟩ := hr r mem_cons_self
    exact ih (fun q hq => hr q (mem_cons_of_mem _ hq)) (h.add hallowed hkey hg)

theorem drops (h : VersionInvariant allowed P) (hk : ∀ k ∈ keys, k.Encodable) (hg : P g) :
    P (keys.foldl GroupStorage.dropVersion g) := by
  induction keys generalizing g with
  | nil => exact hg
  | cons k keys ih => exact ih (fun q hq => hk q (mem_cons_of_mem _ hq)) (h.drop (hk k mem_cons_self) hg)

variable [Blake2b] (h : VersionInvariant allowed P)

include h

theorem putMany (hr : ∀ r ∈ records, allowed r) {written : List Bool} (hs : P s.storage)
    (hp : s.putMany records = .ok (written, s')) : P s'.storage := by
  obtain ⟨hkeys, _, refs, s₁, _, hl, rfl⟩ := putMany_cases hp
  obtain ⟨_, rfl⟩ := loadCells_cases hl
  exact h.adds (fun r hm => ⟨hr r hm, (hkeys r hm).1⟩) hs

theorem remove {dryRun : Bool} {result : Nat × Nat} (hs : P s.storage)
    (hr : s.remove keys dryRun = .ok (result, s')) : P s'.storage := by
  obtain ⟨candidates, _, hk, ⟨_, rfl⟩ | ⟨_, refs, s₁, _, hl, rfl⟩⟩ := remove_cases hr
  · exact hs
  · obtain ⟨_, rfl⟩ := loadCells_cases hl
    exact h.drops (fun k hkm => (hk k hkm).2.1) hs

theorem call {call : SessionCall} (hr : ∀ r ∈ call.records, allowed r) (hs : P s.storage)
    (hrun : call.run s = .ok s') : P s'.storage := by
  cases call with
  | put record =>
    simp only [SessionCall.run, put, bind_eq_ok, pure_eq_ok] at hrun
    obtain ⟨_, ⟨⟨written, s₁⟩, hp, rfl⟩, rfl⟩ := hrun
    exact h.putMany hr hs hp
  | putMany records =>
    simp only [SessionCall.run, bind_eq_ok, pure_eq_ok] at hrun
    obtain ⟨⟨written, s₁⟩, hp, rfl⟩ := hrun
    exact h.putMany hr hs hp
  | remove keys dryRun =>
    simp only [SessionCall.run, bind_eq_ok, pure_eq_ok] at hrun
    obtain ⟨⟨result, s₁⟩, hp, rfl⟩ := hrun
    exact h.remove hs hp
  | putObligations obligations =>
    obtain ⟨_, _, _, hl, ht, _⟩ := putObligations_cases hrun
    exact h.congr hl ht hs
  | removeObligations obligations =>
    obtain ⟨_, _, _, hl, ht, _⟩ := removeObligations_cases hrun
    exact h.congr hl ht hs
  | flush =>
    obtain ⟨_, _, hl, ht, _⟩ := flush_cases hrun
    exact h.congr hl ht hs

theorem runAll {ts : List (Transaction SessionCall)}
    (hr : ∀ t ∈ ts, ∀ call ∈ t.calls, ∀ r ∈ call.records, allowed r) (hg : P g) :
    P (runAll SessionCall.run ts g) := by
  induction ts generalizing g with
  | nil => exact hg
  | cons t ts ih =>
    refine ih (fun t' ht' => hr t' (mem_cons_of_mem _ ht')) ?_
    show P (t.run SessionCall.run g).2
    rcases session_cases (Prod.eta (t.run SessionCall.run g)).symm with
      ⟨_, _, heq⟩ | ⟨a, s, s', _, hb, hf, heq⟩
    · rw [heq]
      exact hg
    · obtain ⟨_, _, hl, ht, _⟩ := flush_cases hf
      have hbody : P s.storage :=
        foldlM_invariant (fun s call s' hc hs hrun => h.call (hr t mem_cons_self call hc) hs hrun)
          (P := fun s : GroupSession => P s.storage) (s := start g) hg
          (body_eq_ok hb)
      rw [heq]
      exact h.congr hl ht hbody

end VersionInvariant

section Clean

variable [Blake2b] {allowed : Key → Prop} {s s' : GroupSession} {records : List Record}
  {commit : Except PyError Unit} {g' : GroupStorage} {written : List Bool}

structure Clean (g : GroupStorage) : Prop extends Sound g, DigestExact g

theorem clean_empty : Clean GroupStorage.empty where
  toSound := sound_empty
  toDigestExact := digestExact_empty

structure CleanSession (s : GroupSession) : Prop where
  sound : Sound s.storage
  exact : SessionExact s

theorem clean_session {α : Type} {body : GroupSession → Except PyError (α × GroupSession)}
    {r : Except PyError α} (h : Clean g)
    (hbody : ∀ a s, CleanSession (.start g) → body (.start g) = .ok (a, s) → CleanSession s)
    (hs : GroupSessionManager.session body commit g = (r, g')) :
    Clean g' ∧ ((∃ e, r = .error e ∧ g' = g) ∨ ∃ a s, r = .ok a ∧ body (.start g) = .ok (a, s) ∧
      g'.logs = s.storage.logs ∧ g'.tags = s.storage.tags) := by
  rcases session_cases hs with ⟨e, rfl, rfl⟩ | ⟨a, s, s', rfl, hb, hf, rfl⟩
  · exact ⟨h, .inl ⟨e, rfl, rfl⟩⟩
  · have hstart : CleanSession (.start g) := ⟨h.toSound, sessionExact_start h.toDigestExact⟩
    obtain ⟨hsound, hexact⟩ := hbody a s hstart hb
    obtain ⟨_, _, hl, ht, _⟩ := flush_cases hf
    exact ⟨⟨hsound.congr hl ht, (digestExact_flush hexact hf).2⟩, .inr ⟨a, s, rfl, hb, hl, ht⟩⟩

theorem CleanSession.putMany (h : CleanSession s) (hr : ∀ r ∈ records, CleanRecord r)
    (hp : s.putMany records = .ok (written, s')) : CleanSession s' := by
  refine ⟨?_, sessionExact_putMany h.exact hp⟩
  obtain ⟨_, _, refs, s₁, _, hl, rfl⟩ := putMany_cases hp
  obtain ⟨_, rfl⟩ := loadCells_cases hl
  exact h.sound.addVersions hr

theorem CleanSession.remove (h : CleanSession s) {keys : List Key} {dryRun : Bool} {result : Nat × Nat}
    (hr : s.remove keys dryRun = .ok (result, s')) : CleanSession s' := by
  refine ⟨?_, sessionExact_remove h.exact hr⟩
  obtain ⟨candidates, _, hk, ⟨_, rfl⟩ | ⟨_, refs, s₁, _, hl, rfl⟩⟩ := remove_cases hr
  · exact h.sound
  · obtain ⟨_, rfl⟩ := loadCells_cases hl
    exact h.sound.dropVersions fun k hkm => (hk k hkm).2.1

structure Held (allowed : Key → Prop) (s : GroupSession) : Prop where
  clean : CleanSession s
  within : ∀ k ∈ s.storage.held, allowed k

theorem Held.putMany (h : Held allowed s) (hr : ∀ r ∈ records, CleanRecord r ∧ allowed r.key)
    (hp : s.putMany records = .ok (written, s')) : Held allowed s' := by
  refine ⟨h.clean.putMany (fun r hm => (hr r hm).1) hp, ?_⟩
  obtain ⟨_, he⟩ := putMany_held h.clean.sound.toHolding (fun r hm => (hr r hm).1.owned) hp
  intro k hk
  rw [he] at hk
  rcases Finset.mem_union.mp hk with hk | hk
  · exact h.within k hk
  · obtain ⟨r, hm, rfl⟩ := mem_map.mp (mem_toFinset.mp hk)
    exact (hr r hm).2

theorem Held.congr (h : Held allowed s) (hl : s'.storage.logs = s.storage.logs)
    (ht : s'.storage.tags = s.storage.tags) (hexact : SessionExact s') : Held allowed s' := by
  refine ⟨⟨h.clean.sound.congr hl ht, hexact⟩, ?_⟩
  rw [held_congr ht]
  exact h.within

theorem Held.run (h : Held allowed s) {call : SessionCall}
    (hr : ∀ r ∈ call.records, CleanRecord r ∧ allowed r.key) (hrun : call.run s = .ok s') : Held allowed s' := by
  have hexact := sessionExact_run h.clean.exact hrun
  cases call with
  | put record =>
    simp only [SessionCall.run, put, bind_eq_ok, pure_eq_ok] at hrun
    obtain ⟨_, ⟨⟨written, s₁⟩, hp, rfl⟩, rfl⟩ := hrun
    exact h.putMany hr hp
  | putMany records =>
    simp only [SessionCall.run, bind_eq_ok, pure_eq_ok] at hrun
    obtain ⟨⟨written, s₁⟩, hp, rfl⟩ := hrun
    exact h.putMany hr hp
  | remove keys dryRun =>
    simp only [SessionCall.run, bind_eq_ok, pure_eq_ok] at hrun
    obtain ⟨⟨result, s₁⟩, hp, rfl⟩ := hrun
    refine ⟨h.clean.remove hp, ?_⟩
    obtain ⟨D, _, _, _, he⟩ := remove_held h.clean.sound.toHolding hp
    intro k hk
    rw [he] at hk
    exact h.within k (Finset.mem_sdiff.mp hk).1
  | putObligations obligations =>
    obtain ⟨_, _, _, hl, ht, _⟩ := putObligations_cases hrun
    exact h.congr hl ht hexact
  | removeObligations obligations =>
    obtain ⟨_, _, _, hl, ht, _⟩ := removeObligations_cases hrun
    exact h.congr hl ht hexact
  | flush =>
    obtain ⟨_, _, hl, ht, _⟩ := flush_cases hrun
    exact h.congr hl ht hexact

theorem clean_run {t : Transaction SessionCall}
    (hr : ∀ call ∈ t.calls, ∀ r ∈ call.records, CleanRecord r ∧ allowed r.key) (h : Clean g)
    (ha : ∀ k ∈ g.held, allowed k) :
    Clean (t.run SessionCall.run g).2 ∧ ∀ k ∈ (t.run SessionCall.run g).2.held, allowed k := by
  have hbody (a : Unit) (s : GroupSession) (hstart : CleanSession (.start g))
      (hb : t.body SessionCall.run (.start g) = .ok (a, s)) : Held allowed s :=
    foldlM_invariant (fun s call s' hc hs hrun => hs.run (hr call hc) hrun) ⟨hstart, ha⟩
      (body_eq_ok hb)
  obtain ⟨hclean, hcases⟩ := clean_session h (fun a s hstart hb => (hbody a s hstart hb).clean)
    (Prod.eta (t.run SessionCall.run g)).symm
  refine ⟨hclean, ?_⟩
  rcases hcases with ⟨e, _, hg⟩ | ⟨a, s, _, hb, _, ht⟩
  · rw [hg]
    exact ha
  · rw [held_congr ht]
    exact (hbody a s ⟨h.toSound, sessionExact_start h.toDigestExact⟩ hb).within

theorem clean_runAll {ts : List (Transaction SessionCall)}
    (hr : ∀ t ∈ ts, ∀ call ∈ t.calls, ∀ r ∈ call.records, CleanRecord r ∧ allowed r.key) (h : Clean g)
    (ha : ∀ k ∈ g.held, allowed k) : Clean (runAll SessionCall.run ts g) ∧
      ∀ k ∈ (runAll SessionCall.run ts g).held, allowed k := by
  induction ts generalizing g with
  | nil => exact ⟨h, ha⟩
  | cons t ts ih =>
    obtain ⟨hclean, hall⟩ := clean_run (hr t (by simp)) h ha
    exact ih (fun t' ht' => hr t' (by simp [ht'])) hclean hall

structure AppliedTo (p : RetentionPolicy) (records : List Record) (g g' : GroupStorage) : Prop where
  clean : Clean g'
  grows : g.held ⊆ g'.held
  origin : ∀ k ∈ g'.held, k ∈ g.held ∨ ∃ r ∈ records, r.key = k

theorem apply_session {p : RetentionPolicy} (hr : ∀ r ∈ records, CleanRecord r) (h : Clean g)
    {r : Except PyError (List WriteDisposition)}
    (hs : GroupSessionManager.session (fun s => p.apply s records) commit g = (r, g')) :
    AppliedTo p records g g' ∧ ∀ ds, r = .ok ds → ∀ q ∈ records,
      Retained Key.newerThan p.versions g'.held q.key := by
  obtain ⟨hclean, hcases⟩ := clean_session h (fun ds s hstart hb => by
    obtain ⟨selected, inserted, hsel, hput, _⟩ := apply_cases hstart.sound.toHolding hb
    exact hstart.putMany (fun q hq => hr q (hsel q hq)) hput) hs
  rcases hcases with ⟨e, rfl, rfl⟩ | ⟨ds, s, rfl, hb, hl, ht⟩
  · refine ⟨⟨hclean, Finset.Subset.refl _, fun k hk => .inl hk⟩, ?_⟩
    intro ds hds
    cases hds
  · obtain ⟨selected, inserted, hsel, hput, hcov⟩ :=
      apply_cases (s := .start g) h.toHolding hb
    obtain ⟨_, he⟩ := putMany_held (s := .start g) h.toHolding
      (fun q hq => (hr q (hsel q hq)).owned) hput
    rw [← held_congr ht] at he
    have hgrow : g.held ⊆ g'.held := by
      rw [he]
      exact Finset.subset_union_left
    refine ⟨⟨hclean, hgrow, ?_⟩, ?_⟩
    · intro k hk
      rw [he] at hk
      rcases Finset.mem_union.mp hk with hk | hk
      · exact .inl hk
      · obtain ⟨q, hq, rfl⟩ := mem_map.mp (mem_toFinset.mp hk)
        exact .inr ⟨q, hsel q hq, rfl⟩
    · intro _ _ q hq
      rcases hcov q hq with hin | hc
      · refine .inl ?_
        rw [he]
        exact Finset.mem_union_right _ (mem_toFinset.mpr (mem_map.mpr ⟨q, hin, rfl⟩))
      · exact .inr (hc.mono hgrow)

end Clean

namespace Sample

def version (wallMs : Nat) : Record :=
  ⟨⟨⟨0, ⟨[1], [2]⟩, ⟨wallMs, 0, "a", size_a⟩⟩, ⟨.live, {}⟩⟩, ⟨[3], 1, size_three⟩⟩

def store (records : List Record) : GroupStorage :=
  runAll SessionCall.run [⟨[.putMany records], none, .ok ()⟩] .empty

theorem version_clean {wallMs : Nat} (h : wallMs < 256 ^ 8) : CleanRecord (version wallMs) where
  encodable := ⟨show (0 : Nat) < _ by decide, show Address.Encodable ⟨[1], [2]⟩ by decide, h,
    show (0 : Nat) < _ by decide⟩
  owned := rfl
  readable _ := rfl
  quorum := show (1 : Nat) < 256 by decide

theorem store_clean {records : List Record} {allowed : Key → Prop}
    (h : ∀ r ∈ records, CleanRecord r ∧ allowed r.key) :
    Clean (store records) ∧ ∀ k ∈ (store records).held, allowed k := by
  refine clean_runAll ?_ clean_empty nofun
  intro t ht call hc r hr
  rw [mem_singleton.mp ht] at hc
  rw [mem_singleton.mp hc] at hr
  exact h r hr

end Sample

end Tourillon
