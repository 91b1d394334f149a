import Tourillon.Schema.Record
import Mathlib.Data.List.MinMax
import Mathlib.Data.List.ReduceOption

namespace Tourillon

open Endian List

variable {v : Version} {versions versions' : List Version} {records : List (Option Record)}

structure Meta where
  ts : HLCTimestamp
  quorumWrite : Nat
  deriving DecidableEq, Repr

structure Version where
  address : Address
  data : Bytes
  metadata : Meta
  deriving DecidableEq, Repr

def versionFromRecord (r : Record) : Version where
  address := r.key.address
  data := r.value.data
  metadata := ⟨r.key.ts, r.value.quorumWrite⟩

def versionsFromRecords (records : List Record) : List Version := records.map versionFromRecord

def visibleVersions (records : List (Option Record)) : List Version :=
  (records.reduceOption.filter Record.owned).map versionFromRecord

def isTombstone (version : Option Version) (records : List (Option Record)) : Bool :=
  match version with
  | none => false
  | some v => records.reduceOption.any fun r => r.key.ts = v.metadata.ts && r.tag.kind = .tombstone

abbrev VersionRank : Type := HLCTimestamp ×ₗ Bytes ×ₗ Bytes ×ₗ Bytes ×ₗ ℕ

def versionRank (v : Version) : VersionRank :=
  toLex (v.metadata.ts, toLex (v.address.ns, toLex (v.address.key, toLex (v.data, v.metadata.quorumWrite))))

def selectVersion (versions : List Version) : Option Version × Nat :=
  match versions.eraseDups.argmax versionRank with
  | none => (none, 0)
  | some v => (some v, versions.count v)

theorem versionRank_injective : Function.Injective versionRank := by
  rintro ⟨⟨key, ns⟩, data, ts, q⟩ ⟨⟨key', ns'⟩, data', ts', q'⟩ h
  simp only [versionRank, EmbeddingLike.apply_eq_iff_eq, Prod.mk.injEq] at h
  obtain ⟨rfl, rfl, rfl, rfl, rfl⟩ := h
  rfl

theorem ts_le_of_rank_le {u : Version} (h : versionRank u ≤ versionRank v) : u.metadata.ts ≤ v.metadata.ts := by
  rw [versionRank, versionRank, Prod.Lex.toLex_le_toLex] at h
  rcases h with hlt | ⟨heq, _⟩
  · exact hlt.le
  · exact heq.le

structure Wins (versions : List Version) (v : Version) : Prop where
  mem : v ∈ versions
  greatest : ∀ u ∈ versions, versionRank u ≤ versionRank v

theorem Wins.unique (h : ∀ u, u ∈ versions' ↔ u ∈ versions) {v' : Version} (hv : Wins versions v)
    (hv' : Wins versions' v') : v' = v := by
  apply versionRank_injective
  apply le_antisymm
  · exact hv.greatest v' ((h v').mp hv'.mem)
  · exact hv'.greatest v ((h v).mpr hv.mem)

theorem selectVersion_cases (versions : List Version) : (selectVersion versions = (none, 0) ∧ versions = []) ∨
      ∃ v, selectVersion versions = (some v, versions.count v) ∧ Wins versions v := by
  unfold selectVersion
  cases hbest : versions.eraseDups.argmax versionRank with
  | none =>
    rw [argmax_eq_none] at hbest
    refine .inl ⟨rfl, eq_nil_iff_forall_not_mem.mpr ?_⟩
    intro u hu
    rw [← mem_eraseDups, hbest] at hu
    cases hu
  | some v =>
    refine .inr ⟨v, rfl, mem_eraseDups.mp (argmax_mem hbest), ?_⟩
    intro u hu
    exact le_of_mem_argmax (mem_eraseDups.mpr hu) hbest

theorem selectVersion_eq_some : (selectVersion versions).1 = some v ↔ Wins versions v := by
  rcases selectVersion_cases versions with ⟨hsel, rfl⟩ | ⟨w, hsel, hw⟩
  · rw [hsel]
    constructor
    · nofun
    · intro h
      cases h.mem
  · rw [hsel, Option.some.injEq]
    constructor
    · rintro rfl
      exact hw
    · intro h
      exact h.unique (fun _ => Iff.rfl) hw

theorem selectVersion_eq_none : (selectVersion versions).1 = none ↔ versions = [] := by
  rcases selectVersion_cases versions with ⟨hsel, rfl⟩ | ⟨w, hsel, hw⟩
  · simp [hsel]
  · rw [hsel]
    constructor
    · nofun
    · rintro rfl
      cases hw.mem

theorem selectVersion_congr (h : ∀ u, u ∈ versions' ↔ u ∈ versions) :
    (selectVersion versions').1 = (selectVersion versions).1 := by
  cases hsel : (selectVersion versions).1 with
  | none =>
    rw [selectVersion_eq_none] at hsel ⊢
    subst hsel
    exact eq_nil_iff_forall_not_mem.mpr fun u hu => by cases (h u).mp hu
  | some v =>
    obtain ⟨hmem, hgreatest⟩ := selectVersion_eq_some.mp hsel
    rw [selectVersion_eq_some]
    exact ⟨(h v).mpr hmem, fun u hu => hgreatest u ((h u).mp hu)⟩

theorem mem_visibleVersions : v ∈ visibleVersions records ↔
      ∃ r, some r ∈ records ∧ r.owned = true ∧ versionFromRecord r = v := by
  simp only [visibleVersions, mem_map, mem_filter, reduceOption_mem_iff, and_assoc]

theorem isTombstone_some : isTombstone (some v) records = true ↔
      ∃ r, some r ∈ records ∧ r.key.ts = v.metadata.ts ∧ r.tag.kind = .tombstone := by
  simp only [isTombstone, any_eq_true, reduceOption_mem_iff, Bool.and_eq_true, decide_eq_true_iff]

end Tourillon
