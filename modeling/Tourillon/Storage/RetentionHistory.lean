import Tourillon.Storage.Retention

namespace Tourillon

open Exceptional TopVersions GroupSession List

structure OwnedRecord extends Record where
  ownedTag : toRecord.owned = true

inductive RetentionCall where
  | put (record : OwnedRecord)
  | apply (records : List OwnedRecord)
  | collect (keys : List Key) (dryRun : Bool)

namespace RetentionCall

def submitted : RetentionCall → List Key
  | .put record => [record.key]
  | .apply records => records.map fun r => r.key
  | .collect _ _ => []

def run [Blake2b] (p : RetentionPolicy) (s : GroupSession) : RetentionCall → Except PyError GroupSession
  | .put record => do
    let (_, s) ← s.put record.toRecord
    return s
  | .apply records => do
    let (_, s) ← p.apply s (records.map OwnedRecord.toRecord)
    return s
  | .collect keys dryRun => do
    let (_, s) ← p.collect s keys dryRun
    return s

end RetentionCall

structure Replica where
  submitted : Finset Key
  storage : GroupStorage

structure Converging (p : RetentionPolicy) (rep : Replica) : Prop where
  holding : Holding rep.storage
  subset : rep.storage.held ⊆ rep.submitted
  retained : ∀ k ∈ rep.submitted, Retained Key.newerThan p.versions rep.storage.held k

theorem Converging.submit {p : RetentionPolicy} {rep : Replica} (h : Converging p rep) {g : GroupStorage}
    {ks : List Key} {stored : Finset Key} (hg : Holding g) (he : g.held = rep.storage.held ∪ stored)
    (hsub : ∀ k ∈ stored, k ∈ ks)
    (hks : ∀ k ∈ ks, k ∈ stored ∨ Covered Key.newerThan p.versions rep.storage.held k) :
    Converging p ⟨rep.submitted ∪ ks.toFinset, g⟩ where
  holding := hg
  subset k hk := by
    rw [he] at hk
    rcases Finset.mem_union.mp hk with hk | hk
    · exact Finset.mem_union_left _ (h.subset hk)
    · exact Finset.mem_union_right _ (mem_toFinset.mpr (hsub k hk))
  retained k hk := by
    rw [he]
    rcases Finset.mem_union.mp hk with hk | hk
    · exact (h.retained k hk).mono Finset.subset_union_left
    · rcases hks k (mem_toFinset.mp hk) with hst | hc
      · exact .inl (Finset.mem_union_right _ hst)
      · exact .inr (hc.mono Finset.subset_union_left)

section Steps

variable [Blake2b] {p : RetentionPolicy} {s s' : GroupSession}

theorem putMany_held {records : List Record} {written : List Bool} (hs : Holding s.storage)
    (ho : ∀ r ∈ records, r.owned = true) (h : s.putMany records = .ok (written, s')) : Holding s'.storage ∧
      s'.storage.held = s.storage.held ∪ (records.map fun r => r.key).toFinset := by
  obtain ⟨hk, _, refs, s₁, _, hl, rfl⟩ := putMany_cases h
  obtain ⟨_, rfl⟩ := loadCells_cases hl
  exact addVersions_held (fun r hr => ⟨(hk r hr).1, ho r hr⟩) hs

theorem remove_held {keys : List Key} {dryRun : Bool} {result : Nat × Nat} (hs : Holding s.storage)
    (h : s.remove keys dryRun = .ok (result, s')) :
    ∃ D : Finset Key, (∀ d ∈ D, d ∈ keys) ∧ D ⊆ s.storage.held ∧ Holding s'.storage ∧
      s'.storage.held = s.storage.held \ D := by
  obtain ⟨candidates, _, hk, ⟨_, rfl⟩ | ⟨_, refs, s₁, _, hl, rfl⟩⟩ := remove_cases h
  · exact ⟨∅, by simp, by simp, hs, by simp⟩
  · obtain ⟨_, rfl⟩ := loadCells_cases hl
    obtain ⟨hh, he⟩ := dropVersions_held (fun k hkm => (hk k hkm).2.1) hs
    refine ⟨candidates.toFinset, ?_, ?_, hh, he⟩
    · intro d hd
      exact (hk d (mem_toFinset.mp hd)).1
    · intro d hd
      exact (mem_held hs.tagKeys).mpr (hk d (mem_toFinset.mp hd)).2

theorem converging_call {S : Finset Key} {call : RetentionCall} (h : Converging p ⟨S, s.storage⟩)
    (hr : call.run p s = .ok s') : Converging p ⟨S ∪ call.submitted.toFinset, s'.storage⟩ := by
  cases call with
  | put record =>
    simp only [RetentionCall.run, put, bind_eq_ok, pure_eq_ok] at hr
    obtain ⟨_, ⟨⟨written, s₁⟩, hput, rfl⟩, rfl⟩ := hr
    obtain ⟨hh, he⟩ := putMany_held h.holding (by simpa using record.ownedTag) hput
    refine h.submit hh he ?_ ?_ <;> simp [RetentionCall.submitted]
  | apply records =>
    simp only [RetentionCall.run, bind_eq_ok, pure_eq_ok] at hr
    obtain ⟨⟨ds, s₁⟩, happ, rfl⟩ := hr
    obtain ⟨selected, inserted, hsel, hput, hcov⟩ := apply_cases h.holding happ
    have howned : ∀ r ∈ selected, r.owned = true := by
      intro r hr
      obtain ⟨o, _, rfl⟩ := mem_map.mp (hsel r hr)
      exact o.ownedTag
    obtain ⟨hh, he⟩ := putMany_held h.holding howned hput
    refine h.submit hh he ?_ ?_
    · intro k hk
      obtain ⟨r, hr, rfl⟩ := mem_map.mp (mem_toFinset.mp hk)
      obtain ⟨o, ho, rfl⟩ := mem_map.mp (hsel r hr)
      exact mem_map.mpr ⟨o, ho, rfl⟩
    · intro k hk
      obtain ⟨o, ho, rfl⟩ := mem_map.mp hk
      rcases hcov o.toRecord (mem_map.mpr ⟨o, ho, rfl⟩) with hin | hc
      · exact .inl (mem_toFinset.mpr (mem_map.mpr ⟨o.toRecord, hin, rfl⟩))
      · exact .inr hc
  | collect keys dryRun =>
    simp only [RetentionCall.run, bind_eq_ok, pure_eq_ok] at hr
    obtain ⟨⟨result, s₁⟩, hcol, rfl⟩ := hr
    obtain ⟨candidates, hrem, _, hcov⟩ := collect_cases h.holding hcol
    obtain ⟨D, hD, _, hh, he⟩ := remove_held h.holding hrem
    simp only [RetentionCall.submitted, toFinset_nil, Finset.union_empty]
    refine ⟨hh, ?_, ?_⟩
    · rw [he]
      exact Finset.sdiff_subset.trans h.subset
    · intro k hk
      rw [he]
      exact (h.retained k hk).sdiff Key.newerThan_trans (hcov D hD)

theorem converging_calls {calls : List RetentionCall} {S : Finset Key} (h : Converging p ⟨S, s.storage⟩)
    (hr : calls.foldlM (RetentionCall.run p) s = .ok s') :
    Converging p ⟨S ∪ (calls.flatMap RetentionCall.submitted).toFinset, s'.storage⟩ := by
  induction calls generalizing S s with
  | nil =>
    simp only [foldlM_nil, pure_eq_ok] at hr
    subst hr
    simpa using h
  | cons call calls ih =>
    simp only [foldlM_cons, bind_eq_ok] at hr
    obtain ⟨s₁, hcall, hrest⟩ := hr
    have hnext := ih (converging_call h hcall) hrest
    rwa [flatMap_cons, toFinset_append, ← Finset.union_assoc]

def Replica.step (p : RetentionPolicy) (rep : Replica) (t : Transaction RetentionCall) : Replica :=
  match t.run (RetentionCall.run p) rep.storage with
  | (.ok _, g) => ⟨rep.submitted ∪ (t.calls.flatMap RetentionCall.submitted).toFinset, g⟩
  | (.error _, g) => ⟨rep.submitted, g⟩

def Replica.run (p : RetentionPolicy) (ts : List (Transaction RetentionCall)) : Replica :=
  ts.foldl (Replica.step p) ⟨∅, .empty⟩

theorem converging_step {rep : Replica} (h : Converging p rep) (t : Transaction RetentionCall) :
    Converging p (rep.step p t) := by
  unfold Replica.step
  rcases session_cases (Prod.eta (t.run (RetentionCall.run p) rep.storage)).symm with
    ⟨e, hr, hg⟩ | ⟨a, s, s', hr, hb, hf, hg⟩
  · rw [← Prod.eta (t.run (RetentionCall.run p) rep.storage), hr, hg]
    exact h
  · rw [← Prod.eta (t.run (RetentionCall.run p) rep.storage), hr, hg]
    obtain ⟨_, _, hlogs, htags, _⟩ := flush_cases hf
    obtain ⟨hh, hsub, hret⟩ := converging_calls (s := .start rep.storage) h
      (Transaction.body_eq_ok hb)
    have heq := held_congr htags
    exact ⟨hh.congr hlogs htags, by rw [heq]; exact hsub, by rw [heq]; exact hret⟩

theorem converging_run (p : RetentionPolicy) (ts : List (Transaction RetentionCall)) :
    Converging p (Replica.run p ts) := by
  have hstart : Converging p ⟨∅, .empty⟩ := ⟨holding_empty, by decide, by simp⟩
  unfold Replica.run
  generalize (⟨∅, .empty⟩ : Replica) = rep at hstart
  induction ts generalizing rep with
  | nil => exact hstart
  | cons t ts ih => exact ih _ (converging_step hstart t)

end Steps

def newestVersions (X : Nat) (addr : PartitionAddress) (S : Finset Key) : Finset Key :=
  top Key.newerThan X (S.filter fun k => k.partitionAddress = addr)

theorem newestVersions_held [Blake2b] (p : RetentionPolicy) (ts : List (Transaction RetentionCall))
    (addr : PartitionAddress) :
    newestVersions p.versions addr (Replica.run p ts).submitted ⊆ (Replica.run p ts).storage.held ∧
      newestVersions p.versions addr (Replica.run p ts).storage.held =
        newestVersions p.versions addr (Replica.run p ts).submitted := by
  obtain ⟨_, hsub, hret⟩ := converging_run p ts
  have hsub' : (Replica.run p ts).storage.held.filter (fun k => k.partitionAddress = addr) ⊆
      (Replica.run p ts).submitted.filter fun k => k.partitionAddress = addr :=
    Finset.filter_subset_filter _ hsub
  have hret' : ∀ k ∈ (Replica.run p ts).submitted.filter (fun k => k.partitionAddress = addr),
      Retained Key.newerThan p.versions
        ((Replica.run p ts).storage.held.filter fun k => k.partitionAddress = addr) k := by
    intro k hk
    obtain ⟨hmem, haddr⟩ := Finset.mem_filter.mp hk
    refine (hret k hmem).imp (fun hin => Finset.mem_filter.mpr ⟨hin, haddr⟩) fun hc => ?_
    refine hc.trans (Finset.card_le_card ?_)
    intro q hq
    obtain ⟨hin, hnew⟩ := Finset.mem_filter.mp hq
    exact Finset.mem_filter.mpr ⟨Finset.mem_filter.mpr ⟨hin, hnew.1.trans haddr⟩, hnew⟩
  exact ⟨(top_subset hret' hsub').trans (Finset.filter_subset _ _), top_eq Key.newerThan_trans hret' hsub'⟩

theorem retention_keeps_newest [Blake2b] (p : RetentionPolicy)
    (ts ts' : List (Transaction RetentionCall)) (addr : PartitionAddress) :
    (∀ k ∈ newestVersions p.versions addr (Replica.run p ts).submitted, k ∈ (Replica.run p ts).storage.held ∧
        ((Replica.run p ts).storage.logs.get (k.encode .logs)).isSome) ∧
    (∀ k ∈ (Replica.run p ts).submitted, (∀ k' ∈ (Replica.run p ts).submitted,
      k'.partitionAddress = k.partitionAddress → k'.ts ≤ k.ts) → k ∈ (Replica.run p ts).storage.held) ∧
    ((Replica.run p ts).submitted.filter (fun k => k.partitionAddress = addr) =
        (Replica.run p ts').submitted.filter (fun k => k.partitionAddress = addr) →
      newestVersions p.versions addr (Replica.run p ts).storage.held =
        newestVersions p.versions addr (Replica.run p ts').storage.held) := by
  obtain ⟨hh, hsub, hret⟩ := converging_run p ts
  refine ⟨?_, ?_, ?_⟩
  · intro k hk
    have hin := (newestVersions_held p ts addr).1 hk
    obtain ⟨henc, value, hv, _⟩ := (mem_held hh.tagKeys).mp hin
    exact ⟨hin, (hh.paired k henc).mp (by simp [hv])⟩
  · intro k hk hmax
    rcases hret k hk with hin | hc
    · exact hin
    · obtain ⟨q, hq⟩ := Finset.card_pos.mp (p.positive.trans hc)
      obtain ⟨hin, haddr, hlt⟩ := Finset.mem_filter.mp hq
      exact absurd hlt (not_lt.mpr (hmax q (hsub hin) haddr))
  · intro hsame
    rw [(newestVersions_held p ts addr).2, (newestVersions_held p ts' addr).2]
    simp only [newestVersions, hsame]

end Tourillon
