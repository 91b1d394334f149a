import Tourillon.Library.OrderedMap
import Mathlib.Data.Set.Insert

namespace Register

variable {κ ν : Type} [LinearOrder κ] {key : ν → κ} {rank : ν → ℕ} {S S' : Set ν}
  {m m' : OrderedMap κ ν} {v : ν}

structure Joined (key : ν → κ) (rank : ν → ℕ) (S : Set ν) (m : OrderedMap κ ν) : Prop where
  sound : ∀ k v, m.get k = some v → v ∈ S ∧ key v = k
  greatest : ∀ v ∈ S, ∃ u, m.get (key v) = some u ∧ rank v ≤ rank u

theorem joined_empty : Joined key rank ∅ (∅ : OrderedMap κ ν) where
  sound := nofun
  greatest := nofun

variable (h : Joined key rank S m)

include h

theorem Joined.accept (hv : ∀ u ∈ m.get (key v), rank u < rank v) :
    Joined key rank (insert v S) (m.insert (key v) v) where
  sound k u hu := by
    rw [OrderedMap.get_insert] at hu
    split at hu
    · rename_i hk
      cases hu
      exact ⟨Set.mem_insert v S, hk.symm⟩
    · exact ⟨Set.mem_insert_of_mem v (h.sound k u hu).1, (h.sound k u hu).2⟩
  greatest u hu := by
    rw [OrderedMap.get_insert]
    split
    · rename_i hk
      refine ⟨v, rfl, ?_⟩
      rcases Set.mem_insert_iff.mp hu with rfl | hS
      · exact le_rfl
      · obtain ⟨w, hw, hle⟩ := h.greatest u hS
        rw [hk] at hw
        exact hle.trans (hv w hw).le
    · rename_i hk
      rcases Set.mem_insert_iff.mp hu with rfl | hS
      · exact absurd rfl hk
      · exact h.greatest u hS

theorem Joined.refuse {u : ν} (hu : m.get (key v) = some u) (hle : rank v ≤ rank u) :
    Joined key rank (insert v S) m where
  sound k w hw := ⟨Set.mem_insert_of_mem v (h.sound k w hw).1, (h.sound k w hw).2⟩
  greatest w hw := by
    rcases Set.mem_insert_iff.mp hw with rfl | hS
    · exact ⟨u, hu, hle⟩
    · exact h.greatest w hS

theorem Joined.extend (hS : S ⊆ S') (hbelow : ∀ v ∈ S', ∃ u, m.get (key v) = some u ∧ rank v ≤ rank u) :
    Joined key rank S' m where
  sound k v hv := ⟨hS (h.sound k v hv).1, (h.sound k v hv).2⟩
  greatest := hbelow

theorem Joined.rank_le (h' : Joined key rank S' m') (hS : S ⊆ S') {k : κ} {u : ν} (hu : m.get k = some u) :
    ∃ u', m'.get k = some u' ∧ rank u ≤ rank u' := by
  obtain ⟨hin, rfl⟩ := h.sound k u hu
  exact h'.greatest u (hS hin)

theorem Joined.get_eq (h' : Joined key rank S m')
    (hinj : ∀ u ∈ S, ∀ v ∈ S, key u = key v → rank u = rank v → u = v) {k : κ} {u : ν} (hu : m.get k = some u) :
    m'.get k = some u := by
  obtain ⟨u', hu', hle⟩ := h.rank_le h' (Set.Subset.refl S) hu
  obtain ⟨u'', hu'', hle'⟩ := h'.rank_le h (Set.Subset.refl S) hu'
  rw [hu] at hu''
  cases hu''
  obtain ⟨hin, hk⟩ := h.sound k u hu
  obtain ⟨hin', hk'⟩ := h'.sound k u' hu'
  rw [hu', hinj u hin u' hin' (hk.trans hk'.symm) (le_antisymm hle hle')]

theorem Joined.get_greatest (hinj : ∀ u ∈ S, ∀ v ∈ S, key u = key v → rank u = rank v → u = v) (hv : v ∈ S)
    (hmax : ∀ u ∈ S, key u = key v → rank u ≤ rank v) : m.get (key v) = some v := by
  obtain ⟨u, hu, hle⟩ := h.greatest v hv
  obtain ⟨hin, hk⟩ := h.sound _ u hu
  rw [hu, hinj v hv u hin hk.symm (le_antisymm hle (hmax u hin hk))]

theorem Joined.unique (h' : Joined key rank S m')
    (hinj : ∀ u ∈ S, ∀ v ∈ S, key u = key v → rank u = rank v → u = v) : m = m' := by
  apply OrderedMap.ext_get
  intro k
  cases hm : m.get k with
  | some u => exact (h.get_eq h' hinj hm).symm
  | none =>
    cases hm' : m'.get k with
    | none => rfl
    | some u => exact absurd (h'.get_eq h hinj hm') (by rw [hm]; nofun)

end Register
