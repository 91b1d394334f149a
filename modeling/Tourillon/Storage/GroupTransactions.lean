import Tourillon.Storage.DigestExact

namespace Tourillon

open Endian Exceptional DigestCell Transaction GroupSession List

theorem not_isDigestRef_obligation (o : ObligationKey) : ¬ IsDigestRef o.encode := by
  intro h
  simp [IsDigestRef, ObligationKey.encode, ObligationKey.targetPrefix, MetaKind.value] at h

inductive SessionCall where
  | put (record : Record)
  | putMany (records : List Record)
  | remove (keys : List Key) (dryRun : Bool)
  | putObligations (obligations : List ObligationKey)
  | removeObligations (obligations : List ObligationKey)
  | flush

section Transactions

variable [Blake2b] {s s' : GroupSession}

def SessionCall.run (s : GroupSession) : SessionCall → Except PyError GroupSession
  | .put record => do
    let (_, s) ← s.put record
    return s
  | .putMany records => do
    let (_, s) ← s.putMany records
    return s
  | .remove keys dryRun => do
    let (_, s) ← s.remove keys dryRun
    return s
  | .putObligations obligations => s.putObligations obligations
  | .removeObligations obligations => s.removeObligations obligations
  | .flush => s.flush

theorem sessionExact_of_metadata (h : SessionExact s) (hd : s'.deltas = s.deltas) (hs : s'.stored = s.stored)
    (ht : s'.storage.tags = s.storage.tags)
    (hm : ∀ ref, IsDigestRef ref → s'.storage.metadata.get ref = s.storage.metadata.get ref) : SessionExact s' := by
  unfold SessionExact
  rw [hd, hs, ht]
  refine ⟨h.keyed, h.known, h.loaded, h.digests, ?_⟩
  intro ref href hn
  obtain ⟨hv, hf⟩ := h.exact ref href hn
  exact ⟨(hm ref href).trans hv, hf⟩

theorem digestExact_flush (h : SessionExact s) (hf : s.flush = .ok s') :
    SessionExact s' ∧ DigestExact s'.storage := by
  obtain ⟨hd, hs, _, ht, hkeep, hwrite⟩ := flush_cases hf
  have hcells (ref : Bytes) (href : IsDigestRef ref) :
      ExactAt s'.storage.metadata s'.storage.tags ref := by
    rw [ht]
    cases hget : s.deltas.get ref with
    | none =>
      obtain ⟨hv, hfit⟩ := h.exact ref href hget
      exact ⟨(hkeep ref hget).trans hv, hfit⟩
    | some d =>
      obtain ⟨c, hc, hfit, hv⟩ := hwrite ref d hget
      have hk := h.known ref c hc
      rw [hget, Option.getD_some] at hk
      exact ⟨by rw [hv, cellValue, hk], hk ▸ hfit⟩
  refine ⟨?_, ?_, hcells⟩
  · unfold SessionExact
    rw [hd, hs]
    refine ⟨ht ▸ h.keyed, ?_, h.loaded, h.digests, fun ref href _ => hcells ref href⟩
    rw [ht]
    exact h.known
  · rw [ht]
    exact h.keyed

theorem sessionExact_run {call : SessionCall} (h : SessionExact s) (hr : call.run s = .ok s') :
    SessionExact s' := by
  cases call with
  | put record =>
    simp only [SessionCall.run, put, bind_eq_ok, pure_eq_ok] at hr
    obtain ⟨_, ⟨⟨written, s₁⟩, hp, rfl⟩, rfl⟩ := hr
    exact sessionExact_putMany h hp
  | putMany records =>
    simp only [SessionCall.run, bind_eq_ok, pure_eq_ok] at hr
    obtain ⟨⟨written, s₁⟩, hp, rfl⟩ := hr
    exact sessionExact_putMany h hp
  | remove keys dryRun =>
    simp only [SessionCall.run, bind_eq_ok, pure_eq_ok] at hr
    obtain ⟨⟨result, s₁⟩, hp, rfl⟩ := hr
    exact sessionExact_remove h hp
  | putObligations obligations =>
    obtain ⟨_, hd, hs, _, ht, hm⟩ := putObligations_cases hr
    refine sessionExact_of_metadata h hd hs ht ?_
    intro ref href
    rw [hm, if_neg]
    intro hmem
    obtain ⟨o, _, rfl⟩ := mem_map.mp hmem
    exact not_isDigestRef_obligation o href
  | removeObligations obligations =>
    obtain ⟨_, hd, hs, _, ht, hm⟩ := removeObligations_cases hr
    refine sessionExact_of_metadata h hd hs ht ?_
    intro ref href
    rw [hm, if_neg]
    intro hmem
    obtain ⟨o, _, rfl⟩ := mem_map.mp hmem
    exact not_isDigestRef_obligation o href
  | flush => exact (digestExact_flush h hr).1

theorem digestExact_session {α : Type} {body : GroupSession → Except PyError (α × GroupSession)}
    {commit : Except PyError Unit} {g : GroupStorage} (h : DigestExact g)
    (hbody : ∀ a s, SessionExact (.start g) → body (.start g) = .ok (a, s) → SessionExact s) :
    DigestExact (GroupSessionManager.session body commit g).2 := by
  rcases session_cases (Prod.eta (GroupSessionManager.session body commit g)).symm with
    ⟨_, _, hg⟩ | ⟨a, s, s', _, hb, hf, hg⟩
  · rw [hg]
    exact h
  · rw [hg]
    exact (digestExact_flush (hbody a s (sessionExact_start h) hb) hf).2

theorem digestExact_empty : DigestExact GroupStorage.empty where
  keyed e he := by cases he
  cells ref _ := ⟨rfl, le_refl _, show 0 < 256 ^ countBytes by decide⟩

theorem digestExact_runAll (ts : List (Transaction SessionCall)) {g : GroupStorage}
    (h : DigestExact g) : DigestExact (runAll SessionCall.run ts g) := by
  induction ts generalizing g with
  | nil => exact h
  | cons t ts ih =>
    refine ih (digestExact_session h fun _ s hs hb => ?_)
    exact t.body_invariant (fun _ _ _ h hr => sessionExact_run h hr) hs hb

def DigestCell.ofKeys (ks : List Key) : DigestCell :=
  ⟨ks.length, (ks.map fun k => Blake2b.digest16 (k.encode .tags)).foldr (· ^^^ ·) 0⟩

theorem DigestCell.ofKeys_eq_sum (ks : List Key) :
    DigestCell.ofKeys ks = ((ks.map (Key.encode .tags)).map DigestCell.ofBytes).sum := by
  induction ks with
  | nil => rfl
  | cons k ks ih =>
    rw [map_cons, map_cons, sum_cons, ← ih]
    refine DigestCell.ext ?_ rfl
    simp only [ofKeys, length_cons, count_add, ofBytes]
    push_cast
    omega

theorem DigestCell.isEmpty_ofKeys {ks : List Key} : (ofKeys ks).isEmpty = true ↔ ks = [] := by
  rw [isEmpty_iff, ofKeys_eq_sum, sum_ofBytes_eq_zero, map_eq_nil_iff]

end Transactions

theorem covered_keys_eq {es : List (Bytes × Bytes)}
    (h : ∀ e ∈ es, ∃ k : Key, k.Encodable ∧ e.1 = k.encode .tags) (ref : Bytes) :
    (es.filter (coveredBy ref)).map Prod.fst = ((es.filterMap fun e =>
      if ownedTagValue e.2 then (Key.fromBytes .tags e.1).toOption else none).filter
        fun k => ref ∈ cellRefs k).map (Key.encode .tags) := by
  induction es with
  | nil => rfl
  | cons e es ih =>
    obtain ⟨k, hk, he⟩ := h e (by simp)
    have hrest := ih fun d hd => h d (by simp [hd])
    obtain ⟨key, value⟩ := e
    obtain rfl : key = k.encode .tags := he
    rw [filter_cons, filterMap_cons, coveredBy_encode hk, Key.fromBytes_tags_encode hk]
    cases ho : ownedTagValue value with
    | false => simpa using hrest
    | true =>
      by_cases hc : ref ∈ cellRefs k
      · simpa [hc, Except.toOption] using hrest
      · simpa [hc, Except.toOption] using hrest

section Exactness

variable [Blake2b]

theorem foldAt_eq_ofKeys {g : GroupStorage} (h : WellKeyed g.tags) (ref : Bytes) :
    foldAt g.tags ref = ofKeys (g.ownedVersions.filter fun k => ref ∈ cellRefs k) := by
  rw [ofKeys_eq_sum, GroupStorage.ownedVersions, ← covered_keys_eq h, map_map]
  rfl

structure HoldsCell (g : GroupStorage) (ref : Bytes) (ks : List Key) : Prop where
  absent : g.metadata.get ref = none ↔ ks = []
  present : ∀ value, g.metadata.get ref = some value →
    fromBytes value = .ok (ofKeys ks)

theorem holdsCell_of_exact {g : GroupStorage} (h : DigestExact g) {ref : Bytes}
    (href : IsDigestRef ref) {p : Key → Bool} (hp : ∀ k : Key, k.Encodable → (ref ∈ cellRefs k ↔ p k = true)) :
    HoldsCell g ref (g.ownedVersions.filter p) := by
  have hfilter : g.ownedVersions.filter (fun k => ref ∈ cellRefs k) = g.ownedVersions.filter p := by
    refine filter_congr ?_
    intro k hk
    rw [Bool.eq_iff_iff, decide_eq_true_iff]
    exact hp k (encodable_of_mem_ownedVersions h.keyed hk)
  obtain ⟨hv, hfit⟩ := h.cells ref href
  rw [foldAt_eq_ofKeys h.keyed, hfilter] at hv hfit
  constructor
  · rw [hv, cellValue, ← isEmpty_ofKeys]
    split <;> simp_all
  · intro value hval
    rw [hv, cellValue] at hval
    split at hval
    · cases hval
    · cases hval
      exact fromBytes_encode hfit

theorem digest_cells_exact (ts : List (Transaction SessionCall)) :
    (∀ e ∈ (runAll SessionCall.run ts .empty).tags.entries,
      ∃ k, Key.toBytes .tags k = .ok e.1 ∧ Key.fromBytes .tags e.1 = .ok k) ∧ (∀ pid ref, rootKey pid = .ok ref →
      HoldsCell (runAll SessionCall.run ts .empty) ref
      ((runAll SessionCall.run ts .empty).ownedVersions.filter fun k => k.pid = pid)) ∧
    (∀ pid bucket ref, bucketKey pid bucket = .ok ref → HoldsCell (runAll SessionCall.run ts .empty) ref
      ((runAll SessionCall.run ts .empty).ownedVersions.filter fun k =>
        k.pid = pid ∧ k.ts.wallMs >>> 22 = bucket)) ∧
    ∀ (t : Transaction SessionCall) (g : GroupStorage) (e : PyError),
      (t.run SessionCall.run g).1 = .error e → (t.run SessionCall.run g).2 = g := by
  have hex := digestExact_runAll ts digestExact_empty
  refine ⟨?_, ?_, ?_, ?_⟩
  · intro e he
    obtain ⟨k, hk, hkey⟩ := hex.keyed e he
    exact ⟨k, Key.toBytes_tags_eq_ok.mpr ⟨hk, hkey⟩, hkey ▸ Key.fromBytes_tags_encode hk⟩
  · intro pid ref href
    obtain ⟨hp, rfl⟩ := rootKey_eq_ok.mp href
    refine holdsCell_of_exact hex (show IsDigestRef (rootRef pid) from rfl) ?_
    intro k hk
    rw [mem_cellRefs_root hk hp, decide_eq_true_iff]
  · intro pid bucket ref href
    obtain ⟨⟨hp, hb⟩, rfl⟩ := bucketKey_eq_ok.mp href
    refine holdsCell_of_exact hex (show IsDigestRef (bucketRef pid bucket) from rfl) ?_
    intro k hk
    rw [mem_cellRefs_bucket hk hp hb, decide_eq_true_iff]
    rfl
  · intro t g e he
    rcases session_cases (Prod.eta (t.run SessionCall.run g)).symm with ⟨_, _, hg⟩ | ⟨a, _, _, hr, _⟩
    · exact hg
    · rw [he] at hr
      cases hr

end Exactness

end Tourillon
