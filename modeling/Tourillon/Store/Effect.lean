import Tourillon.Store.NodeTransactions

namespace Tourillon

variable {obligations : List ObligationKey} {records : List Record} {keys : List Key} {addr : PartitionAddress}
  {ts : HLCTimestamp} {S' : List Record}

inductive Effect (p : RetentionPolicy) (node : String) (S : List Record) (g g' : GroupStorage) :
    Prop where
  | added (records : List Record) (obligations : List ObligationKey)
      (known : ∀ r ∈ records, r ∈ S) (change : Added node records obligations g g')
  | dropped (keys : List Key) (change : Dropped p keys g g')
  | forgot (obligations : List ObligationKey) (change : Forgot obligations g g')

def GroupStorage.Reaches (g : GroupStorage) (addr : PartitionAddress) (ts : HLCTimestamp) : Prop :=
  ∃ k ∈ g.held, k.partitionAddress = addr ∧ ts ≤ k.ts

structure Ledger (node : String) (S : List Record) (g : GroupStorage) : Prop extends Recorded S g where
  covered : ∀ o, g.Owes o → o.target ≠ node ∧ g.Reaches o.address o.requiredTs

variable {p : RetentionPolicy} {node : String} {S : List Record} {g g' : GroupStorage}

theorem Effect.refl (p : RetentionPolicy) (node : String) (S : List Record) (g : GroupStorage) :
    Effect p node S g g := .added [] [] nofun (added_nothing node g)

theorem Added.held (hg : Holding g) (h : Added node records obligations g g') :
    g'.held = g.held ∪ (records.map fun r => r.key).toFinset := by
  rw [held_congr h.tags]
  exact (addVersions_held (fun r hr => ⟨(h.clean r hr).encodable, (h.clean r hr).owned⟩) hg).2

theorem Added.stores (h : Added node records obligations g g') {r : Record} (hr : g.Stores r) : g'.Stores r :=
  (GroupStorage.stores_congr h.logs h.tags r).mpr (hr.addVersions records)

theorem Added.recorded (h : Added node records obligations g g') (hS : ∀ r ∈ records, r ∈ S) (hg : Recorded S g) :
    Recorded S g' :=
  (hg.addVersions fun r hr => ⟨h.clean r hr, hS r hr⟩).congr h.logs h.tags

theorem Dropped.recorded (h : Dropped p keys g g') (hg : Recorded S g) :
    Recorded S g' := (hg.dropVersions h.encodable).congr h.logs h.tags

theorem Forgot.recorded (h : Forgot obligations g g') (hg : Recorded S g) : Recorded S g' := hg.congr h.logs h.tags

theorem Dropped.reaches (h : Dropped p keys g g') (hr : g.Reaches addr ts) : g'.Reaches addr ts := by
  obtain ⟨k, hk, haddr, hts⟩ := hr
  rcases h.kept k hk with hin | hcovered
  · exact ⟨k, hin, haddr, hts⟩
  · obtain ⟨q, hq⟩ := Finset.card_pos.mp (p.positive.trans hcovered)
    obtain ⟨hheld, hsame, hlt⟩ := Finset.mem_filter.mp hq
    exact ⟨q, hheld, hsame.trans haddr, hts.trans hlt.le⟩

section

variable (h : Effect p node S g g')

include h

theorem Effect.recorded (hg : Recorded S g) : Recorded S g' := by
  cases h with
  | added records obligations known change => exact change.recorded known hg
  | dropped keys change => exact change.recorded hg
  | forgot obligations change => exact change.recorded hg

theorem Effect.reaches (hg : Holding g) (hr : g.Reaches addr ts) : g'.Reaches addr ts := by
  cases h with
  | added records obligations known change =>
    obtain ⟨k, hk, hkey⟩ := hr
    refine ⟨k, ?_, hkey⟩
    rw [change.held hg]
    exact Finset.mem_union_left _ hk
  | dropped keys change => exact change.reaches hr
  | forgot obligations change =>
    rw [GroupStorage.Reaches, held_congr change.tags]
    exact hr

theorem Effect.held (hg : Holding g) {k : Key} (hk : k ∈ g'.held) : k ∈ g.held ∨ ∃ r ∈ S, r.key = k := by
  cases h with
  | added records obligations known change =>
    rw [change.held hg] at hk
    rcases Finset.mem_union.mp hk with hold | hnew
    · exact .inl hold
    · obtain ⟨r, hr, rfl⟩ := List.mem_map.mp (List.mem_toFinset.mp hnew)
      exact .inr ⟨r, known r hr, rfl⟩
  | dropped keys change =>
    rw [held_congr change.tags, (dropVersions_held change.encodable hg).2] at hk
    exact .inl (Finset.mem_sdiff.mp hk).1
  | forgot obligations change =>
    rw [held_congr change.tags] at hk
    exact .inl hk

theorem Effect.ledger (hg : Ledger node S g) : Ledger node S g' := by
  refine ⟨h.recorded hg.toRecorded, ?_⟩
  have hkeep (o : ObligationKey) (ho : g.Owes o) :
      o.target ≠ node ∧ g'.Reaches o.address o.requiredTs :=
    ⟨(hg.covered o ho).1, h.reaches hg.toHolding (hg.covered o ho).2⟩
  intro o ho
  cases h with
  | added records obligations known change =>
    rcases (change.owes o).mp ho with hold | hnew
    · exact hkeep o hold
    · obtain ⟨hne, r, hr, hkey⟩ := change.foreign o hnew
      refine ⟨hne, r.key, ?_, ?_, ?_⟩
      · rw [change.held hg.toHolding]
        exact Finset.mem_union_right _ (List.mem_toFinset.mpr (List.mem_map_of_mem hr))
      · rw [hkey]
        rfl
      · rw [hkey]
        exact le_rfl
  | dropped keys change => exact hkeep o ((change.owes o).mp ho)
  | forgot obligations change => exact hkeep o ((change.owes o).mp ho).1

theorem Effect.mono (hs : ∀ r ∈ S, r ∈ S') : Effect p node S' g g' := by
  cases h with
  | added records obligations known change =>
    exact .added records obligations (fun r hr => hs r (known r hr)) change
  | dropped keys change => exact .dropped keys change
  | forgot obligations change => exact .forgot obligations change

end

theorem Ledger.mono (h : Ledger node S g) (hs : ∀ r ∈ S, r ∈ S') :
    Ledger node S' g := ⟨h.toRecorded.mono hs, h.covered⟩

end Tourillon
