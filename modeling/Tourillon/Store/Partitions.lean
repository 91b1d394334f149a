import Tourillon.Store.Segments

namespace Tourillon

open Endian

def HashSpace.init (bits : Int) (hash : Bytes → Nat) : Except PyError HashSpace :=
  if bits < 1 then .error (.valueError s!"bits must be >= 1, got {bits}")
  else .ok ⟨bits.toNat, hash⟩

theorem HashSpace.bits_init {bits : Int} {hash : Bytes → Nat} {s : HashSpace}
    (h : HashSpace.init bits hash = .ok s) : s.bits = bits.toNat := by
  unfold HashSpace.init at h
  split at h
  · cases h
  · cases h
    rfl

def LogicalPartition.contains (l : LogicalPartition) (h : Nat) : Bool :=
  if l.start < l.stop then l.start ≤ h && h < l.stop else l.start ≤ h || h < l.stop

namespace Partitioner

def init (pshift gshift : Int) (s : HashSpace) : Except PyError Partitioner :=
  if (s.bits : Int) ≤ pshift then
    .error (.valueError s!"partition_shift ({pshift}) must be strictly less than bits ({s.bits})")
  else if _hshift : pshift ≤ gshift then
    .error (.valueError s!"group_shift ({gshift}) must be strictly less than partition_shift ({pshift})")
  else if _hnegative : gshift < 0 then .error (.valueError "negative shift count")
  else .ok ⟨pshift.toNat, gshift.toNat, by omega⟩

theorem pshift_init {pshift gshift : Int} {s : HashSpace} {p : Partitioner}
    (h : init pshift gshift s = .ok p) : p.pshift < s.bits := by
  unfold init at h
  split at h
  · cases h
  · split at h
    · cases h
    · split at h
      · cases h
      · cases h
        dsimp only
        omega

section Accepted

variable (p : Partitioner) {s : HashSpace}

def pidPerGroup : Nat := 1 <<< (p.pshift - p.gshift)

def groupBounds (gid : Int) : Except PyError (Int × Int) :=
  if gid < 0 ∨ p.totalGroups ≤ gid then .error (.valueError s!"invalid group_id {gid}")
  else
    let size : Int := p.pidPerGroup
    let start := gid * size
    .ok (start, start + size - 1)

theorem pidPerGroup_pos : 0 < p.pidPerGroup := by
  rw [pidPerGroup, Nat.one_shiftLeft]
  positivity

theorem groupFor_eq (pid : Nat) : p.groupFor pid = pid / p.pidPerGroup := by
  rw [groupFor, pidPerGroup, Nat.one_shiftLeft, Nat.shiftRight_eq_div_pow]

theorem totalPartitions_eq : p.totalPartitions = p.totalGroups * p.pidPerGroup := by
  have hshift := p.shiftLt
  rw [totalPartitions, totalGroups, pidPerGroup, Nat.one_shiftLeft, Nat.one_shiftLeft,
    Nat.one_shiftLeft, ← Nat.pow_add]
  congr 1
  omega

theorem groupFor_eq_iff (pid g : Nat) :
    p.groupFor pid = g ↔ g * p.pidPerGroup ≤ pid ∧ pid < (g + 1) * p.pidPerGroup := by
  rw [groupFor_eq, ← Nat.le_div_iff_mul_le p.pidPerGroup_pos, ← Nat.div_lt_iff_lt_mul p.pidPerGroup_pos]
  omega

theorem groupBounds_ok {g : Nat} (h : g < p.totalGroups) :
    p.groupBounds g = .ok (g * p.pidPerGroup, g * p.pidPerGroup + p.pidPerGroup - 1) := by
  rw [groupBounds, if_neg (by omega)]

theorem of_groupBounds {gid lo hi : Int} (h : p.groupBounds gid = .ok (lo, hi)) :
    ∃ g : Nat, gid = g ∧ g < p.totalGroups := by
  unfold groupBounds at h
  split at h
  · cases h
  · exact ⟨gid.toNat, by omega, by omega⟩

theorem groupFor_eq_iff_bounds {pid : Nat} (hpid : pid < p.totalPartitions) (gid : Int) :
    p.groupFor pid = gid ↔ ∃ lo hi, p.groupBounds gid = .ok (lo, hi) ∧ lo ≤ pid ∧ pid ≤ hi := by
  have hinside (g : Nat) : p.groupFor pid = g ↔ (g : Int) * p.pidPerGroup ≤ pid ∧
      (pid : Int) ≤ g * p.pidPerGroup + p.pidPerGroup - 1 := by
    rw [groupFor_eq_iff, Nat.succ_mul]
    push_cast [← Int.ofNat_le, ← Int.ofNat_lt]
    omega
  constructor
  · rintro rfl
    exact ⟨_, _, p.groupBounds_ok (p.groupFor_lt hpid), (hinside _).mp rfl⟩
  · rintro ⟨lo, hi, hbounds, hlo, hhi⟩
    obtain ⟨g, rfl, hg⟩ := p.of_groupBounds hbounds
    rw [p.groupBounds_ok hg] at hbounds
    cases hbounds
    exact congrArg Nat.cast ((hinside g).mpr ⟨hlo, hhi⟩)

theorem pidForHash_lt_total (hbits : p.pshift < s.bits) {h : Nat} (hh : h < s.max) :
    p.pidForHash s h < p.totalPartitions :=
  pidForHash_lt hbits ⟨Int.natCast_nonneg h, Nat.cast_lt.mpr hh⟩

theorem contains_partitionFor (hbits : p.pshift < s.bits) {pid h : Nat} (hpid : pid < p.totalPartitions)
    (hh : h < s.max) : (p.partitionFor s pid).contains h = true ↔ pid = p.pidForHash s h := by
  have hstart : pid * p.partitionStep s ≤ h ↔ pid ≤ p.pidForHash s h := by
    rw [pidForHash_eq hbits, Nat.le_div_iff_mul_le (partitionStep_pos hbits)]
  have hlast := p.pidForHash_lt_total hbits hh
  unfold LogicalPartition.contains
  rcases Nat.lt_or_eq_of_le (Nat.succ_le_of_lt hpid) with hinner | hwrap
  · have hstop : (pid + 1) * p.partitionStep s ≤ h ↔ pid < p.pidForHash s h :=
      mod_cast boundary_le_iff hbits (Int.natCast_nonneg h)
    have hstep : pid * p.partitionStep s < (pid + 1) * p.partitionStep s :=
      Nat.mul_lt_mul_of_pos_right (Nat.lt_succ_self pid) (partitionStep_pos hbits)
    simp only [partitionFor, partitionEnd_of_lt hbits hinner, if_pos hstep, Bool.and_eq_true, decide_eq_true_iff]
    omega
  · simp only [partitionFor, partitionEnd_last hbits hwrap, Nat.not_lt_zero, if_false, decide_false,
      Bool.or_false, decide_eq_true_iff, hstart]
    omega

end Accepted

theorem partitions_tile {bits pshift gshift : Int} {hash : Bytes → Nat} {s : HashSpace} {p : Partitioner}
    (hspace : HashSpace.init bits hash = .ok s) (hp : init pshift gshift s = .ok p) :
    (∀ h < 2 ^ bits.toNat, p.pidForHash s h < p.totalPartitions ∧
      ∀ pid < p.totalPartitions, (p.partitionFor s pid).contains h = true ↔ pid = p.pidForHash s h) ∧
    (∀ pid < p.totalPartitions, ∀ g : Int,
      p.groupFor pid = g ↔ ∃ lo hi, p.groupBounds g = .ok (lo, hi) ∧ lo ≤ pid ∧ pid ≤ hi) ∧
    p.totalPartitions = p.totalGroups * p.pidPerGroup ∧
    ∀ g < p.totalGroups, p.groupBounds g = .ok (g * p.pidPerGroup, (g + 1) * p.pidPerGroup - 1) := by
  have hbits := pshift_init hp
  have hmax : s.max = 2 ^ bits.toNat := by rw [HashSpace.max, HashSpace.bits_init hspace, Nat.one_shiftLeft]
  refine ⟨?_, fun pid hpid g => p.groupFor_eq_iff_bounds hpid g, p.totalPartitions_eq, ?_⟩
  · intro h hh
    rw [← hmax] at hh
    exact ⟨p.pidForHash_lt_total hbits hh, fun pid hpid => p.contains_partitionFor hbits hpid hh⟩
  · intro g hg
    rw [p.groupBounds_ok hg, Int.add_mul, Int.one_mul]

end Partitioner

namespace Sample

theorem init_nibble : HashSpace.init 4 (fun _ => 0) = .ok nibble := rfl

theorem init_quartered : Partitioner.init 2 1 nibble = .ok quartered := rfl

theorem wrapped_partition :
    (quartered.partitionFor nibble 3).stop = 0 ∧ (quartered.partitionFor nibble 3).contains 15 = true ∧
      quartered.groupBounds 1 = .ok (2, 3) := by
  obtain ⟨hpartitions, _, _, hbounds⟩ := Partitioner.partitions_tile init_nibble init_quartered
  exact ⟨rfl, ((hpartitions 15 (by decide)).2 3 (by decide)).mpr rfl, hbounds 1 (by decide)⟩

end Sample

end Tourillon
