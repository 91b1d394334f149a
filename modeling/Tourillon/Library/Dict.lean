import Mathlib.Data.List.Nodup
import Mathlib.Data.List.Perm.Basic

structure Dict (κ ν : Type) where
  entries : List (κ × ν)
  nodup : (entries.map Prod.fst).Nodup

namespace Dict

open List

variable {κ ν : Type} {d : Dict κ ν} {k : κ}

instance : EmptyCollection (Dict κ ν) := ⟨⟨[], nodup_nil⟩⟩

def keys (d : Dict κ ν) : List κ := d.entries.map Prod.fst

def size (d : Dict κ ν) : Nat := d.entries.length

theorem size_eq_keys (d : Dict κ ν) : d.size = d.keys.length := (length_map ..).symm

theorem keys_append (h : k ∉ d.keys) (v : ν) : ((d.entries ++ [(k, v)]).map Prod.fst).Nodup := by
  rw [map_append]
  exact List.Nodup.append d.nodup (nodup_singleton k) (disjoint_singleton.mpr h)

variable [DecidableEq κ]

section

variable (d : Dict κ ν) (k : κ)

def get : Option ν := d.entries.lookup k

def erase : Dict κ ν := ⟨d.entries.filter fun e => e.1 ≠ k, (filter_sublist.map Prod.fst).nodup d.nodup⟩

def replaced (v : ν) : List (κ × ν) := d.entries.map fun e => if e.1 = k then (k, v) else e

theorem keys_replaced (v : ν) : (d.replaced k v).map Prod.fst = d.keys := by
  rw [replaced, map_map]
  refine map_congr_left fun e _ => ?_
  dsimp only [Function.comp]
  split
  · rename_i heq
    exact heq.symm
  · rfl

def set (v : ν) : Dict κ ν :=
  if h : k ∈ d.keys then ⟨d.replaced k v, by rw [keys_replaced]; exact d.nodup⟩
  else ⟨d.entries ++ [(k, v)], keys_append h v⟩

end

theorem get_eq_some {v : ν} : d.get k = some v ↔ (k, v) ∈ d.entries := by
  obtain ⟨entries, hnodup⟩ := d
  unfold get
  induction entries with
  | nil => simp
  | cons e entries ih =>
    obtain ⟨hout, hrest⟩ := nodup_cons.mp hnodup
    rw [lookup_cons, mem_cons]
    rcases eq_or_ne k e.1 with rfl | hne
    · simp only [beq_self_eq_true, Option.some.injEq]
      constructor
      · rintro rfl
        exact .inl rfl
      · rintro (heq | hin)
        · exact (congrArg Prod.snd heq).symm
        · exact absurd (mem_map_of_mem hin) hout
    · rw [beq_eq_false_iff_ne.mpr hne]
      refine (ih hrest).trans ⟨.inr, ?_⟩
      rintro (heq | hin)
      · exact absurd (congrArg Prod.fst heq) hne
      · exact hin

theorem mem_keys : k ∈ d.keys ↔ ∃ v, d.get k = some v := by
  simp only [keys, mem_map, get_eq_some]
  constructor
  · rintro ⟨⟨k', v⟩, he, rfl⟩
    exact ⟨v, he⟩
  · rintro ⟨v, he⟩
    exact ⟨(k, v), he, rfl⟩

theorem get_eq_none : d.get k = none ↔ k ∉ d.keys := by
  rw [mem_keys, Option.eq_none_iff_forall_ne_some, not_exists]

theorem get_erase (d : Dict κ ν) (k k' : κ) : (d.erase k).get k' = if k' = k then none else d.get k' := by
  apply Option.ext
  intro v
  rw [get_eq_some, erase, mem_filter, decide_eq_true_iff]
  split
  · rename_i heq
    exact ⟨fun h => absurd heq h.2, fun h => absurd h (Option.some_ne_none v).symm⟩
  · rename_i hne
    rw [get_eq_some]
    exact and_iff_left hne

theorem get_set (d : Dict κ ν) (k k' : κ) (v : ν) : (d.set k v).get k' = if k' = k then some v else d.get k' := by
  apply Option.ext
  intro w
  rw [get_eq_some, set]
  split
  · rename_i hin
    obtain ⟨u, hu⟩ := mem_keys.mp hin
    rw [get_eq_some] at hu
    simp only [replaced, mem_map]
    split
    · rename_i heq
      subst heq
      constructor
      · rintro ⟨e, he, heq⟩
        split at heq
        · exact congrArg some (congrArg Prod.snd heq)
        · rename_i hne
          exact absurd (congrArg Prod.fst heq) hne
      · rintro ⟨⟩
        exact ⟨(k', u), hu, if_pos rfl⟩
    · rename_i hne
      rw [get_eq_some]
      constructor
      · rintro ⟨e, he, heq⟩
        split at heq
        · exact absurd (congrArg Prod.fst heq).symm hne
        · exact heq ▸ he
      · intro he
        exact ⟨(k', w), he, if_neg hne⟩
  · rename_i hout
    rw [mem_append, mem_singleton, ← get_eq_some]
    split
    · rename_i heq
      subst heq
      rw [get_eq_none.mpr hout]
      simp [eq_comm]
    · rename_i hne
      simp [hne]

theorem keys_erase (d : Dict κ ν) (k : κ) : (d.erase k).keys = d.keys.erase k := by
  have hfilter : d.keys.erase k = d.keys.filter (· != k) := List.Nodup.erase_eq_filter d.nodup k
  rw [hfilter, keys, erase, keys, filter_map]
  refine congrArg (map Prod.fst) (filter_congr fun e _ => ?_)
  by_cases h : e.1 = k <;> simp [h]

theorem erase_of_not_mem (h : k ∉ d.keys) : d.erase k = d := by
  obtain ⟨entries, hnodup⟩ := d
  unfold erase
  congr
  rw [filter_eq_self]
  intro e he
  refine decide_eq_true ?_
  rintro rfl
  exact h (mem_map_of_mem he)

theorem keys_set_of_mem (h : k ∈ d.keys) (v : ν) : (d.set k v).keys = d.keys := by
  rw [set, dif_pos h]
  exact d.keys_replaced k v

theorem keys_set_of_not_mem (h : k ∉ d.keys) (v : ν) : (d.set k v).keys = d.keys ++ [k] := by
  rw [set, dif_neg h]
  exact map_append

theorem size_set_of_not_mem (h : k ∉ d.keys) (v : ν) : (d.set k v).size = d.size + 1 := by
  rw [size_eq_keys, keys_set_of_not_mem h, size_eq_keys, length_append, length_singleton]

theorem size_erase_of_mem (h : k ∈ d.keys) : (d.erase k).size + 1 = d.size := by
  rw [size_eq_keys, keys_erase, size_eq_keys, length_erase_add_one h]

end Dict
