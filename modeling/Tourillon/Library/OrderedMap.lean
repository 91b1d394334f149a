import Mathlib.Data.List.Sort
import Mathlib.Data.List.Perm.Basic
import Mathlib.Algebra.BigOperators.Group.List.Basic

structure OrderedMap (κ ν : Type) [LinearOrder κ] where
  entries : List (κ × ν)
  sorted : entries.Pairwise (fun a b => a.1 < b.1)

namespace OrderedMap

open List

variable {κ ν : Type} [LinearOrder κ] (m : OrderedMap κ ν) {k : κ} {es : List (κ × ν)} {v : ν} {e : κ × ν}

def empty : OrderedMap κ ν := ⟨[], .nil⟩

instance : EmptyCollection (OrderedMap κ ν) := ⟨empty⟩

def insertEntry (k : κ) (v : ν) : List (κ × ν) → List (κ × ν)
  | [] => [(k, v)]
  | e :: es => if k < e.1 then (k, v) :: e :: es
      else if k = e.1 then (k, v) :: es
      else e :: insertEntry k v es

theorem mem_insertEntry (h : e ∈ insertEntry k v es) : e = (k, v) ∨ e ∈ es := by
  induction es with
  | nil => simpa [insertEntry] using h
  | cons d es ih =>
    simp only [insertEntry] at h
    split at h
    · simpa using h
    · split at h
      · rcases mem_cons.mp h with h | h
        · exact .inl h
        · exact .inr (mem_cons_of_mem _ h)
      · rcases mem_cons.mp h with h | h
        · exact .inr (h ▸ mem_cons_self ..)
        · exact (ih h).imp_right (mem_cons_of_mem _)

theorem insertEntry_sorted (h : es.Pairwise (fun a b => a.1 < b.1)) :
    (insertEntry k v es).Pairwise (fun a b => a.1 < b.1) := by
  induction es with
  | nil => simp [insertEntry]
  | cons d es ih =>
    obtain ⟨hd, hes⟩ := pairwise_cons.mp h
    simp only [insertEntry]
    split
    · rename_i hlt
      refine pairwise_cons.mpr ⟨?_, h⟩
      intro e he
      rcases mem_cons.mp he with rfl | he
      · exact hlt
      · exact hlt.trans (hd e he)
    · split
      · rename_i heq
        exact pairwise_cons.mpr ⟨fun e he => heq ▸ hd e he, hes⟩
      · rename_i hnlt hne
        refine pairwise_cons.mpr ⟨?_, ih hes⟩
        intro e he
        rcases mem_insertEntry he with rfl | he
        · exact lt_of_le_of_ne (not_lt.mp hnlt) (Ne.symm hne)
        · exact hd e he

section

variable (m : OrderedMap κ ν)

def insert (k : κ) (v : ν) : OrderedMap κ ν := ⟨insertEntry k v m.entries, insertEntry_sorted m.sorted⟩

def insertNew (k : κ) (v : ν) : OrderedMap κ ν :=
  if (m.entries.find? (fun e => e.1 = k)).isSome then m else m.insert k v

def erase (k : κ) : OrderedMap κ ν := ⟨m.entries.filter (fun e => e.1 ≠ k), m.sorted.filter _⟩

def get (k : κ) : Option ν := (m.entries.find? (fun e => e.1 = k)).map Prod.snd

def contains (k : κ) : Bool := (m.get k).isSome

def keys : List κ := m.entries.map Prod.fst

def above (k : κ) : List (κ × ν) := m.entries.filter (fun e => k < e.1)

def below (k : κ) : List (κ × ν) := m.entries.filter (fun e => e.1 < k)

end

theorem entries_eq_of_key (h : es.Pairwise (fun a b => a.1 < b.1)) {d : κ × ν} (hd : d ∈ es) (he : e ∈ es)
    (hk : d.1 = e.1) : d = e := by
  induction es with
  | nil => simp at hd
  | cons x es ih =>
    obtain ⟨hx, hes⟩ := pairwise_cons.mp h
    rcases mem_cons.mp hd with hdx | hd <;> rcases mem_cons.mp he with hex | he
    · rw [hdx, hex]
    · exact absurd (hx e he) (by rw [← hdx, hk]; exact lt_irrefl _)
    · exact absurd (hx d hd) (by rw [← hex, hk]; exact lt_irrefl _)
    · exact ih hes hd he

theorem eq_filter_of_mem {m : OrderedMap κ ν} {p : κ × ν → Bool}
    (hsorted : es.Pairwise (fun a b => a.1 < b.1)) (h : ∀ e, e ∈ es ↔ e ∈ m.entries ∧ p e = true) :
    es = m.entries.filter p := by
  have hirrefl : Std.Irrefl fun a b : κ × ν => a.1 < b.1 := ⟨fun a => lt_irrefl a.1⟩
  have hanti : Std.Antisymm fun a b : κ × ν => a.1 < b.1 := ⟨fun _ _ hab hba => absurd hab hba.asymm⟩
  refine hsorted.eq_of_mem_iff (m.sorted.filter _) ?_
  intro e
  rw [mem_filter, h]

theorem filter_split (p : κ × ν → Bool) (k : κ) : m.entries.filter p = (m.entries.filter fun e => p e ∧ e.1 ≤ k) ++
      m.entries.filter fun e => p e ∧ k < e.1 := by
  refine (eq_filter_of_mem (pairwise_append.mpr ⟨m.sorted.filter _, m.sorted.filter _, ?_⟩) ?_).symm
  · intro a ha b hb
    have hle : a.1 ≤ k := (decide_eq_true_iff.mp (mem_filter.mp ha).2).2
    have hlt : k < b.1 := (decide_eq_true_iff.mp (mem_filter.mp hb).2).2
    exact hle.trans_lt hlt
  · intro e
    rw [mem_append, mem_filter, mem_filter, decide_eq_true_iff, decide_eq_true_iff]
    constructor
    · rintro (⟨he, hp, _⟩ | ⟨he, hp, _⟩)
      · exact ⟨he, hp⟩
      · exact ⟨he, hp⟩
    · rintro ⟨he, hp⟩
      rcases le_or_gt e.1 k with hle | hlt
      · exact .inl ⟨he, hp, hle⟩
      · exact .inr ⟨he, hp, hlt⟩

theorem get_eq_some {m : OrderedMap κ ν} : m.get k = some v ↔ (k, v) ∈ m.entries := by
  constructor
  · intro h
    obtain ⟨e, he, hv⟩ := Option.map_eq_some_iff.mp h
    have hk : e.1 = k := by simpa using find?_some he
    have hm := mem_of_find?_eq_some he
    rwa [show e = (k, v) from Prod.ext hk hv] at hm
  · intro h
    cases hf : m.entries.find? (fun e => e.1 = k) with
    | none => simpa using find?_eq_none.mp hf (k, v) h
    | some e =>
      have hk : e.1 = k := by simpa using find?_some hf
      have he := entries_eq_of_key m.sorted (mem_of_find?_eq_some hf) h hk
      simp [get, hf, he]

theorem get_eq_none {m : OrderedMap κ ν} : m.get k = none ↔ ∀ v, (k, v) ∉ m.entries := by
  rw [Option.eq_none_iff_forall_ne_some]
  exact forall_congr' fun v => not_congr get_eq_some

theorem get_of_filter {m m' : OrderedMap κ ν} {p : κ → Bool}
    (h : m.entries = m'.entries.filter fun e => p e.1) (hk : p k = true) : m.get k = m'.get k := by
  ext v
  rw [get_eq_some, get_eq_some, h, mem_filter]
  exact ⟨fun hin => hin.1, fun hin => ⟨hin, hk⟩⟩

@[simp] theorem get_empty (k : κ) : (∅ : OrderedMap κ ν).get k = none := rfl

@[ext] theorem ext {m m' : OrderedMap κ ν} (h : m.entries = m'.entries) : m = m' := by
  cases m; cases m'; cases h; rfl

theorem insertEntry_self (es : List (κ × ν)) : (k, v) ∈ insertEntry k v es := by
  induction es with
  | nil => simp [insertEntry]
  | cons d es ih =>
    simp only [insertEntry]
    split
    · simp
    · split
      · simp
      · exact mem_cons_of_mem _ ih

theorem mem_insertEntry_of_ne (he : e ∈ es) (hk : e.1 ≠ k) : e ∈ insertEntry k v es := by
  induction es with
  | nil => simp at he
  | cons d es ih =>
    simp only [insertEntry]
    split
    · exact mem_cons_of_mem _ he
    · split
      · rename_i heq
        rcases mem_cons.mp he with hd | he
        · exact absurd (hd ▸ heq.symm) hk
        · exact mem_cons_of_mem _ he
      · rcases mem_cons.mp he with rfl | he
        · exact mem_cons_self ..
        · exact mem_cons_of_mem _ (ih he)

@[simp] theorem get_insert_self (k : κ) (v : ν) :
    (m.insert k v).get k = some v := get_eq_some.mpr (insertEntry_self _)

theorem get_insert_of_ne {k' : κ} (v : ν) (h : k' ≠ k) : (m.insert k v).get k' = m.get k' := by
  ext w
  simp only [get_eq_some]
  constructor
  · intro hm
    rcases mem_insertEntry hm with he | hm
    · exact absurd (congrArg Prod.fst he) h
    · exact hm
  · exact fun hm => mem_insertEntry_of_ne hm h

theorem get_insert (k k' : κ) (v : ν) [Decidable (k' = k)] :
    (m.insert k v).get k' = if k' = k then some v else m.get k' := by
  split
  · rename_i h; rw [h, get_insert_self]
  · rename_i h; exact get_insert_of_ne m v h

theorem insertNew_of_none {m : OrderedMap κ ν} (h : m.get k = none) (v : ν) : m.insertNew k v = m.insert k v := by
  have hf : m.entries.find? (fun e => e.1 = k) = none := by simpa [get] using h
  simp [insertNew, hf]

theorem insertNew_of_some {m : OrderedMap κ ν} {w : ν} (h : m.get k = some w) (v : ν) : m.insertNew k v = m := by
  obtain ⟨e, he, _⟩ := Option.map_eq_some_iff.mp h
  simp [insertNew, he]

theorem get_insertNew (k k' : κ) (v : ν) [Decidable (k' = k)] :
    (m.insertNew k v).get k' = (m.get k').or (if k' = k then some v else none) := by
  cases h : m.get k with
  | none =>
    rw [insertNew_of_none h, get_insert]
    by_cases hk : k' = k
    · simp [hk, h]
    · simp [hk]
  | some w =>
    rw [insertNew_of_some h]
    by_cases hk : k' = k
    · simp [hk, h]
    · simp [hk]

theorem get_erase (k k' : κ) [Decidable (k' = k)] : (m.erase k).get k' = if k' = k then none else m.get k' := by
  ext w
  split
  · rename_i h
    simp [get_eq_some, erase, h]
  · rename_i h
    simp [get_eq_some, erase, h]

theorem nodup_keys : m.keys.Nodup := by
  have h : m.keys.Pairwise (· < ·) := pairwise_map.mpr m.sorted
  exact h.imp ne_of_lt

theorem nodup_entries : m.entries.Nodup :=
  m.sorted.imp fun h => fun he => absurd (congrArg Prod.fst he) (ne_of_lt h)

theorem entries_perm_insert (v : ν) (h : m.get k = none) : (m.insert k v).entries.Perm ((k, v) :: m.entries) := by
  refine (perm_ext_iff_of_nodup (nodup_entries _) ?_).mpr ?_
  · exact nodup_cons.mpr ⟨get_eq_none.mp h v, nodup_entries m⟩
  · intro e
    constructor
    · intro he
      exact mem_cons.mpr (mem_insertEntry he)
    · intro he
      rcases mem_cons.mp he with rfl | hes
      · exact insertEntry_self _
      · refine mem_insertEntry_of_ne hes ?_
        rintro rfl
        exact get_eq_none.mp h e.2 hes

theorem entries_perm_erase (h : m.get k = some v) : m.entries.Perm ((k, v) :: (m.erase k).entries) := by
  have hm := get_eq_some.mp h
  refine (perm_ext_iff_of_nodup (nodup_entries _) ?_).mpr ?_
  · refine nodup_cons.mpr ⟨?_, nodup_entries _⟩
    simp [erase]
  · intro e
    simp only [mem_cons, erase, mem_filter, decide_not, Bool.not_eq_true', decide_eq_false_iff_not]
    constructor
    · intro he
      by_cases hk : e.1 = k
      · exact .inl (entries_eq_of_key m.sorted he hm hk)
      · exact .inr ⟨he, hk⟩
    · rintro (rfl | he)
      · exact hm
      · exact he.1

theorem ext_get {m m' : OrderedMap κ ν} (h : ∀ k, m.get k = m'.get k) : m = m' := by
  have hmem (e : κ × ν) : e ∈ m.entries ↔ e ∈ m'.entries := by rw [← get_eq_some, ← get_eq_some, h]
  have hperm := (perm_ext_iff_of_nodup (nodup_entries m) (nodup_entries m')).mpr hmem
  ext1
  exact hperm.eq_of_pairwise (fun a b _ _ hab hba => absurd (hab.trans hba) (lt_irrefl _))
    m.sorted m'.sorted

theorem get_foldl_insert (h : (es.map Prod.fst).Nodup) (m : OrderedMap κ ν) :
    (es.foldl (fun m e => m.insert e.1 e.2) m).get k = some v ↔
      (k, v) ∈ es ∨ (k ∉ es.map Prod.fst ∧ m.get k = some v) := by
  induction es generalizing m with
  | nil => simp
  | cons e es ih =>
    obtain ⟨hfresh, hrest⟩ := nodup_cons.mp h
    rw [foldl_cons, ih hrest, get_insert]
    by_cases hk : k = e.1
    · subst hk
      have hout : (e.1, v) ∉ es := fun hin => hfresh (mem_map.mpr ⟨_, hin, rfl⟩)
      have hhead : (e.1, v) = e ↔ e.2 = v :=
        ⟨fun heq => (congrArg Prod.snd heq).symm, fun heq => Prod.ext rfl heq.symm⟩
      simp only [mem_cons, hout, hfresh, hhead, map_cons, if_true, Option.some.injEq]
      tauto
    · have hne : (k, v) ≠ e := fun heq => hk (congrArg Prod.fst heq)
      simp [hk, hne]

theorem mem_above {m : OrderedMap κ ν} : e ∈ m.above k ↔ e ∈ m.entries ∧ k < e.1 := by simp [above]

theorem mem_below {m : OrderedMap κ ν} : e ∈ m.below k ↔ e ∈ m.entries ∧ e.1 < k := by simp [below]

section Memo

structure Tabulates (m : OrderedMap κ ν) (f : κ → ν) : Prop where
  value : ∀ k v, m.get k = some v → v = f k

def consult (m : OrderedMap κ ν) (f : κ → ν) (k : κ) : ν × OrderedMap κ ν :=
  match m.get k with
  | some v => (v, m)
  | none => (f k, m.insert k (f k))

theorem tabulates_empty (f : κ → ν) : (∅ : OrderedMap κ ν).Tabulates f := ⟨nofun⟩

theorem Tabulates.consult {m : OrderedMap κ ν} {f : κ → ν} (h : m.Tabulates f) (k : κ) :
    (m.consult f k).1 = f k ∧ (m.consult f k).2.Tabulates f := by
  unfold OrderedMap.consult
  cases hget : m.get k with
  | some v => exact ⟨h.value k v hget, h⟩
  | none =>
    refine ⟨rfl, ⟨?_⟩⟩
    intro k' v hv
    rw [get_insert] at hv
    split at hv
    · rename_i heq
      cases hv
      rw [heq]
    · exact h.value k' v hv

end Memo

section Sum

variable {M : Type} [AddCommGroup M] (m : OrderedMap κ ν) (p : κ × ν → Bool) (f : κ → M)

def sumWhere : M := ((m.entries.filter p).map (fun e => f e.1)).sum

theorem sumWhere_insert (v : ν) (h : m.get k = none) :
    (m.insert k v).sumWhere p f = (if p (k, v) then f k else 0) + m.sumWhere p f := by
  unfold sumWhere
  rw [(((entries_perm_insert m v h).filter p).map _).sum_eq, filter_cons]
  split <;> simp

theorem sumWhere_erase (h : m.get k = some v) :
    (m.erase k).sumWhere p f = m.sumWhere p f - (if p (k, v) then f k else 0) := by
  unfold sumWhere
  rw [(((entries_perm_erase m h).filter p).map _).sum_eq, filter_cons]
  split <;> simp

end Sum

end OrderedMap
