import Tourillon.Storage.VersionOrder

namespace Tourillon

open Exceptional List

variable {g : GroupStorage} {S : List Record} {r : Record}

structure Storable (r : Record) : Prop where
  owned : r.owned = true
  readable : r.tag.Readable
  quorum : r.value.quorumWrite < 256

theorem Storable.clean (h : Storable r) (hk : r.key.Encodable) : CleanRecord r :=
  ⟨hk, h.owned, h.readable, h.quorum⟩

namespace GroupStorage

def Stores (g : GroupStorage) (r : Record) : Prop :=
  g.tags.get (r.key.encode .tags) = some r.tag.toBytes ∧
    g.logs.get (r.key.encode .logs) = some r.value.encode

instance (g : GroupStorage) (r : Record) : Decidable (g.Stores r) := inferInstanceAs (Decidable (_ ∧ _))

def Owes (g : GroupStorage) (o : ObligationKey) : Prop := o.key.Encodable ∧ (g.metadata.get o.encode).isSome

instance (g : GroupStorage) (o : ObligationKey) : Decidable (g.Owes o) := inferInstanceAs (Decidable (_ ∧ _))

theorem Stores.addVersion {q : Record} (h : g.Stores q) (r : Record) : (g.addVersion r).Stores q := by
  simp only [Stores, GroupStorage.addVersion, OrderedMap.get_insertNew, h.1, h.2, Option.some_or, and_self]

theorem Stores.addVersions {q : Record} (h : g.Stores q) (records : List Record) :
    (records.foldl GroupStorage.addVersion g).Stores q := by
  induction records generalizing g with
  | nil => exact h
  | cons r records ih => exact ih (h.addVersion r)

theorem stores_congr {g' : GroupStorage} (hl : g'.logs = g.logs) (ht : g'.tags = g.tags) (r : Record) :
    g'.Stores r ↔ g.Stores r := by
  rw [Stores, Stores, hl, ht]

end GroupStorage

structure Recorded (S : List Record) (g : GroupStorage) : Prop extends Sound g where
  source : ∀ k ∈ g.held, ∃ r ∈ S, r.key = k ∧ g.Stores r

theorem Recorded.congr {g' : GroupStorage} (h : Recorded S g) (hl : g'.logs = g.logs) (ht : g'.tags = g.tags) :
    Recorded S g' where
  toSound := h.toSound.congr hl ht
  source k hk := by
    rw [held_congr ht] at hk
    obtain ⟨r, hr, hkey, hs⟩ := h.source k hk
    exact ⟨r, hr, hkey, (GroupStorage.stores_congr hl ht r).mpr hs⟩

theorem Recorded.mono {S' : List Record} (h : Recorded S g) (hs : ∀ r ∈ S, r ∈ S') : Recorded S' g where
  toSound := h.toSound
  source k hk := by
    obtain ⟨r, hr, hkey, hstores⟩ := h.source k hk
    exact ⟨r, hs r hr, hkey, hstores⟩

theorem recorded_empty (S : List Record) : Recorded S .empty where
  toSound := sound_empty
  source k hk := by
    obtain ⟨_, value, hv, _⟩ := (mem_held holding_empty.tagKeys).mp hk
    cases hv

theorem stores_addVersion_self (h : Sound g) (hr : r.key.Encodable) (hn : r.key ∉ g.held) :
    (g.addVersion r).Stores r := by
  rw [h.mem_held_iff hr, Option.not_isSome_iff_eq_none] at hn
  have hlog : g.logs.get (r.key.encode .logs) = none := by
    rw [← Option.not_isSome_iff_eq_none, ← h.paired r.key hr, hn]
    simp
  simp only [GroupStorage.Stores, GroupStorage.addVersion, OrderedMap.get_insertNew, hn, hlog,
    Option.none_or, if_true, and_self]

theorem Recorded.addVersion (h : Recorded S g) (hr : CleanRecord r) (hin : r ∈ S) :
    Recorded S (g.addVersion r) where
  toSound := h.toSound.addVersion hr
  source k hk := by
    rw [held_addVersion h.toHolding hr.encodable hr.owned] at hk
    rcases em (k ∈ g.held) with hheld | hnew
    · obtain ⟨q, hq, hkey, hs⟩ := h.source k hheld
      exact ⟨q, hq, hkey, hs.addVersion r⟩
    · obtain rfl := (Finset.mem_insert.mp hk).resolve_right hnew
      exact ⟨r, hin, rfl, stores_addVersion_self h.toSound hr.encodable hnew⟩

theorem Recorded.addVersions {records : List Record} (hr : ∀ r ∈ records, CleanRecord r ∧ r ∈ S)
    (h : Recorded S g) : Recorded S (records.foldl GroupStorage.addVersion g) := by
  induction records generalizing g with
  | nil => exact h
  | cons r records ih =>
    obtain ⟨hclean, hin⟩ := hr r mem_cons_self
    exact ih (fun q hq => hr q (mem_cons_of_mem _ hq)) (h.addVersion hclean hin)

theorem GroupStorage.Stores.dropVersion {q : Record} (h : g.Stores q) (hq : q.key.Encodable) {key : Key}
    (hk : key.Encodable) (hne : q.key ≠ key) : (g.dropVersion key).Stores q := by
  have ht : q.key.encode .tags ≠ key.encode .tags := fun he => hne (Key.encode_tags_inj hq hk he)
  have hl : q.key.encode .logs ≠ key.encode .logs := fun he => hne (Key.encode_logs_inj hq hk he)
  simp only [Stores, GroupStorage.dropVersion, OrderedMap.get_erase, ht, hl, if_false, h.1, h.2, and_self]

theorem Recorded.dropVersion (h : Recorded S g) {key : Key} (hk : key.Encodable) :
    Recorded S (g.dropVersion key) where
  toSound := h.toSound.dropVersion hk
  source k hmem := by
    rw [held_dropVersion h.toHolding hk] at hmem
    obtain ⟨hne, hheld⟩ := Finset.mem_erase.mp hmem
    obtain ⟨r, hr, rfl, hs⟩ := h.source k hheld
    exact ⟨r, hr, rfl, hs.dropVersion (h.encodable_of_held hheld) hk hne⟩

theorem Recorded.dropVersions {keys : List Key} (hk : ∀ k ∈ keys, k.Encodable) (h : Recorded S g) :
    Recorded S (keys.foldl GroupStorage.dropVersion g) := by
  induction keys generalizing g with
  | nil => exact h
  | cons key keys ih =>
    exact ih (fun k hm => hk k (mem_cons_of_mem _ hm))
      (h.dropVersion (hk key mem_cons_self))

theorem read_of_stores (hr : Storable r) (hk : r.key.Encodable) (h : g.Stores r) : g.read r.key = .ok (some r) := by
  have htag : g.get .tags (r.key.encode .tags) = some r.tag.toBytes := h.1
  have hlog : g.get .logs (r.key.encode .logs) = some r.value.encode := h.2
  refine GroupStorage.read_eq_ok.mpr ⟨hk, ?_⟩
  simp only [htag, hlog, recordAt, Tag.fromBytes_toBytes hr.readable, Value.fromBytes_encode hr.quorum]
  rfl

theorem found_of_read (h : Sound g) {k : Key} (hr : g.read k = .ok (some r)) : r.key = k ∧ k ∈ g.held := by
  obtain ⟨hk, hrecord⟩ := GroupStorage.read_eq_ok.mp hr
  obtain ⟨hkey, _, hheld⟩ := foundAt_recordAt h hk hrecord
  exact ⟨hkey, hheld⟩

theorem Recorded.read (h : Recorded S g) (hS : ∀ r ∈ S, Storable r) {k : Key} (hr : g.read k = .ok (some r)) :
    r ∈ S ∧ r.key = k ∧ k ∈ g.held := by
  obtain ⟨hkey, hheld⟩ := found_of_read h.toSound hr
  obtain ⟨q, hq, rfl, hstores⟩ := h.source k hheld
  rw [read_of_stores (hS q hq) (h.encodable_of_held hheld) hstores] at hr
  cases hr
  exact ⟨hq, hkey, hheld⟩

end Tourillon
