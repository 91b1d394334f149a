import Tourillon.Storage.Session
import Mathlib.Data.Finset.Union

namespace Tourillon

open Endian OrderedMap GroupStorage Key List

variable {g : GroupStorage} {keys : List Key} {key : Key} {r : Record} {tags : Db} {k : Key} {g' : GroupStorage}

def WellKeyed (tags : Db) : Prop := ∀ e ∈ tags.entries, ∃ k : Key, k.Encodable ∧ e.1 = k.encode .tags

def WellLogged (logs : Db) : Prop := ∀ e ∈ logs.entries, ∃ k : Key, k.Encodable ∧ e.1 = k.encode .logs

def OwnedIn (tags : Db) (key : Key) : Prop :=
  key.Encodable ∧ ∃ value, tags.get (key.encode .tags) = some value ∧ ownedTagValue value

theorem wellKeyed_insert (h : WellKeyed tags) (hk : key.Encodable) (value : Bytes) :
    WellKeyed (tags.insert (key.encode .tags) value) := by
  intro e he
  rcases mem_insertEntry he with rfl | he
  · exact ⟨key, hk, rfl⟩
  · exact h e he

theorem wellKeyed_erase (h : WellKeyed tags) (ref : Bytes) : WellKeyed (tags.erase ref) :=
  fun e he => h e (mem_of_mem_filter he)

theorem wellKeyed_addVersion (h : WellKeyed g.tags) (hk : r.key.Encodable) : WellKeyed (g.addVersion r).tags := by
  cases hg : g.tags.get (r.key.encode .tags) with
  | none =>
    simp only [addVersion, insertNew_of_none hg]
    exact wellKeyed_insert h hk _
  | some v => simpa [addVersion, insertNew_of_some hg] using h

def GroupStorage.ownedVersions (g : GroupStorage) : List Key :=
  g.tags.entries.filterMap fun e => if ownedTagValue e.2 then (fromBytes .tags e.1).toOption else none

theorem encodable_of_mem_ownedVersions (h : WellKeyed g.tags) (hk : k ∈ g.ownedVersions) :
    k.Encodable := by
  obtain ⟨e, he, hdec⟩ := mem_filterMap.mp hk
  obtain ⟨k', hk', hkey⟩ := h e he
  split at hdec
  · rw [hkey, fromBytes_tags_encode hk'] at hdec
    exact Option.some.inj hdec ▸ hk'
  · cases hdec

def GroupStorage.held (g : GroupStorage) : Finset Key := g.ownedVersions.toFinset

def GroupStorage.counted (g : GroupStorage) (ref : Bytes) : Finset Key :=
  g.held.filter fun k => ref ∈ cellRefs k

theorem mem_held (h : WellKeyed g.tags) : k ∈ g.held ↔ OwnedIn g.tags k := by
  rw [held, mem_toFinset]
  constructor
  · intro hk
    have henc := encodable_of_mem_ownedVersions h hk
    obtain ⟨e, he, hdec⟩ := mem_filterMap.mp hk
    obtain ⟨k', hk', hkey⟩ := h e he
    split at hdec
    · rename_i ho
      rw [hkey, fromBytes_tags_encode hk'] at hdec
      obtain rfl : k' = k := Option.some.inj hdec
      exact ⟨henc, e.2, get_eq_some.mpr (hkey ▸ he), ho⟩
    · cases hdec
  · rintro ⟨henc, value, hv, ho⟩
    refine mem_filterMap.mpr ⟨(k.encode .tags, value), get_eq_some.mp hv, ?_⟩
    simp [ho, fromBytes_tags_encode henc, Except.toOption]

structure Holding (g : GroupStorage) : Prop where
  tagKeys : WellKeyed g.tags
  logKeys : WellLogged g.logs
  owned : ∀ e ∈ g.tags.entries, ownedTagValue e.2 = true
  paired : ∀ k : Key, k.Encodable →
    ((g.tags.get (k.encode .tags)).isSome ↔ (g.logs.get (k.encode .logs)).isSome)

theorem Holding.congr (h : Holding g) (hl : g'.logs = g.logs) (ht : g'.tags = g.tags) : Holding g' where
  tagKeys := ht ▸ h.tagKeys
  logKeys := hl ▸ h.logKeys
  owned := ht ▸ h.owned
  paired := hl ▸ ht ▸ h.paired

theorem held_congr (ht : g'.tags = g.tags) : g'.held = g.held := by simp only [held, ownedVersions, ht]

theorem holding_empty : Holding empty where
  tagKeys e he := by cases he
  logKeys e he := by cases he
  owned e he := by cases he
  paired _ _ := Iff.rfl

theorem mem_insertNew {d : Db} {k v : Bytes} {e : Bytes × Bytes}
    (h : e ∈ (d.insertNew k v).entries) : e = (k, v) ∨ e ∈ d.entries := by
  unfold insertNew at h
  split at h
  · exact .inr h
  · exact mem_insertEntry h

theorem Holding.addVersion (h : Holding g) (hk : r.key.Encodable) (ho : r.owned = true) :
    Holding (g.addVersion r) where
  tagKeys := wellKeyed_addVersion h.tagKeys hk
  logKeys e he := by
    rcases mem_insertNew he with rfl | he
    · exact ⟨r.key, hk, rfl⟩
    · exact h.logKeys e he
  owned e he := by
    rcases mem_insertNew he with rfl | he
    · simpa [Record.owned] using ho
    · exact h.owned e he
  paired k hke := by
    have ht : k.encode .tags = r.key.encode .tags ↔ k = r.key := ⟨encode_tags_inj hke hk, fun he => he ▸ rfl⟩
    have hl : k.encode .logs = r.key.encode .logs ↔ k = r.key := ⟨encode_logs_inj hke hk, fun he => he ▸ rfl⟩
    simp only [GroupStorage.addVersion, get_insertNew, Option.isSome_or, ht, hl, Bool.or_eq_true, h.paired k hke]
    split <;> simp

theorem Holding.dropVersion (h : Holding g) (hk : key.Encodable) : Holding (g.dropVersion key) where
  tagKeys := wellKeyed_erase h.tagKeys _
  logKeys e he := h.logKeys e (mem_of_mem_filter he)
  owned e he := h.owned e (mem_of_mem_filter he)
  paired k hke := by
    have ht : k.encode .tags = key.encode .tags ↔ k = key := ⟨encode_tags_inj hke hk, fun he => he ▸ rfl⟩
    have hl : k.encode .logs = key.encode .logs ↔ k = key := ⟨encode_logs_inj hke hk, fun he => he ▸ rfl⟩
    simp only [GroupStorage.dropVersion, get_erase, ht, hl]
    split
    · simp
    · exact h.paired k hke

theorem held_addVersion (h : Holding g) (hk : r.key.Encodable) (ho : r.owned = true) :
    (g.addVersion r).held = insert r.key g.held := by
  ext k
  rw [mem_held (h.addVersion hk ho).tagKeys, Finset.mem_insert, mem_held h.tagKeys]
  simp only [OwnedIn, addVersion, get_insertNew]
  cases hg : g.tags.get (k.encode .tags) with
  | some w =>
    constructor
    · rintro ⟨henc, value, hv, hown⟩
      exact .inr ⟨henc, value, hv, hown⟩
    · rintro (rfl | hx)
      · exact ⟨hk, w, rfl, h.owned _ (get_eq_some.mp hg)⟩
      · exact hx
  | none =>
    constructor
    · rintro ⟨henc, value, hv, hown⟩
      refine .inl ?_
      by_contra hne
      have hdiff : k.encode .tags ≠ r.key.encode .tags := fun he => hne (encode_tags_inj henc hk he)
      simp [hdiff] at hv
    · rintro (rfl | ⟨_, _, hx, _⟩)
      · exact ⟨hk, r.tag.toBytes, by simp, by simpa [Record.owned] using ho⟩
      · cases hx

theorem held_dropVersion (h : Holding g) (hk : key.Encodable) : (g.dropVersion key).held = g.held.erase key := by
  ext k
  rw [mem_held (h.dropVersion hk).tagKeys, Finset.mem_erase, mem_held h.tagKeys]
  simp only [OwnedIn, dropVersion, get_erase]
  constructor
  · rintro ⟨henc, value, hv, hown⟩
    split at hv
    · cases hv
    · rename_i hne
      exact ⟨fun heq => hne (heq ▸ rfl), henc, value, hv, hown⟩
  · rintro ⟨hne, henc, value, hv, hown⟩
    have hdiff : k.encode .tags ≠ key.encode .tags := fun he => hne (encode_tags_inj henc hk he)
    exact ⟨henc, value, by simp [hdiff, hv], hown⟩

theorem entries_foldl_dropVersion : ((keys.foldl dropVersion g).logs.entries =
      g.logs.entries.filter fun e => e.1 ∉ keys.map (encode .logs)) ∧ ((keys.foldl dropVersion g).tags.entries =
      g.tags.entries.filter fun e => e.1 ∉ keys.map (encode .tags)) := by
  induction keys generalizing g with
  | nil => simp
  | cons key keys ih =>
    obtain ⟨hlogs, htags⟩ := ih (g := g.dropVersion key)
    rw [foldl_cons, hlogs, htags]
    simp only [dropVersion, erase, filter_filter, map_cons, mem_cons, not_or, Bool.decide_and]
    constructor
    · refine filter_congr fun e _ => ?_
      rw [Bool.eq_iff_iff]
      simp [and_comm]
    · refine filter_congr fun e _ => ?_
      rw [Bool.eq_iff_iff]
      simp [and_comm]

theorem get_foldl_dropVersion (b : Bytes) : ((keys.foldl dropVersion g).logs.get b =
      if b ∈ keys.map (encode .logs) then none else g.logs.get b) ∧ ((keys.foldl dropVersion g).tags.get b =
      if b ∈ keys.map (encode .tags) then none else g.tags.get b) := by
  induction keys generalizing g with
  | nil => exact ⟨rfl, rfl⟩
  | cons key keys ih =>
    obtain ⟨hlogs, htags⟩ := ih (g := g.dropVersion key)
    rw [foldl_cons, hlogs, htags, dropVersion, get_erase, get_erase]
    constructor
    · by_cases hb : b = key.encode .logs <;> simp [hb]
    · by_cases hb : b = key.encode .tags <;> simp [hb]

theorem addVersions_held {records : List Record} (hr : ∀ r ∈ records, r.key.Encodable ∧ r.owned = true)
    (h : Holding g) : Holding (records.foldl addVersion g) ∧ (records.foldl addVersion g).held =
        g.held ∪ (records.map fun r => r.key).toFinset := by
  induction records generalizing g with
  | nil => exact ⟨h, by simp⟩
  | cons r records ih =>
    obtain ⟨hk, ho⟩ := hr r (by simp)
    obtain ⟨hh, he⟩ := ih (fun r' hr' => hr r' (by simp [hr'])) (h.addVersion hk ho)
    refine ⟨hh, ?_⟩
    rw [foldl_cons, he, held_addVersion h hk ho, map_cons, toFinset_cons, Finset.insert_union, Finset.union_insert]

theorem dropVersions_held (hk : ∀ k ∈ keys, k.Encodable) (h : Holding g) : Holding (keys.foldl dropVersion g) ∧
      (keys.foldl dropVersion g).held = g.held \ keys.toFinset := by
  induction keys generalizing g with
  | nil => exact ⟨h, by simp⟩
  | cons key keys ih =>
    obtain ⟨hh, he⟩ := ih (fun k hkm => hk k (by simp [hkm])) (h.dropVersion (hk key (by simp)))
    refine ⟨hh, ?_⟩
    rw [foldl_cons, he, held_dropVersion h (hk key (by simp)), toFinset_cons]
    ext k
    simp only [Finset.mem_sdiff, Finset.mem_erase, Finset.mem_insert, mem_toFinset]
    tauto

end Tourillon
