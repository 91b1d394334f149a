import Tourillon.Library.Tiling
import Tourillon.Store.Placement
import Mathlib.Data.List.TakeWhile

namespace Tourillon

open Tiling List Tiles

variable {total : Nat}

structure OwnerSegment where
  lo : Nat
  hi : Nat
  owner : VNode
  deriving DecidableEq, Repr

structure PartitionRange where
  owner : VNode
  pred : VNode
  arc : Option (Nat × Nat)
  deriving DecidableEq, Repr

structure LogicalPartition where
  pid : Nat
  start : Nat
  stop : Nat
  deriving DecidableEq, Repr

def PartitionRange.linear (r : PartitionRange) (total : Nat) : List OwnerSegment :=
  match r.arc with
  | none => []
  | some (start, stop) =>
    if start = stop then [⟨0, total - 1, r.owner⟩]
    else if start < stop then [⟨start + 1, stop, r.owner⟩]
    else ⟨0, stop, r.owner⟩ ::
      if start + 1 < total then [⟨start + 1, total - 1, r.owner⟩] else []

namespace Partitioner

variable (p : Partitioner) (s : HashSpace)

def partitionFor (pid : Nat) : LogicalPartition := ⟨pid, pid * p.partitionStep s, p.partitionEnd s pid⟩

def pidForToken (token : Int) : Int := token >>> (s.bits - p.pshift)

def beforePid (pid : Int) : Nat := ((pid - 1) % p.totalPartitions).toNat

def arcFor (pred succ : VNode) : Option (Nat × Nat) :=
  let predPid := p.pidForToken s pred.token
  let succPid := p.pidForToken s succ.token
  if pred.token = succ.token then none
  else if pred.token < succ.token ∧ predPid = succPid then none
  else some (p.beforePid predPid, p.beforePid succPid)

def rangeFor (pred succ : VNode) : PartitionRange := ⟨succ, pred, p.arcFor s pred succ⟩

def rangesAfter : VNode → List VNode → List PartitionRange
  | _, [] => []
  | pred, succ :: rest => p.rangeFor s pred succ :: rangesAfter succ rest

def rangesFor (ring : Ring) : List PartitionRange :=
  match ring.vnodes with
  | [] => []
  | [vnode] =>
    let pid := p.beforePid (p.pidForToken s vnode.token)
    [⟨vnode, vnode, some (pid, pid)⟩]
  | first :: second :: rest =>
    p.rangeFor s ((second :: rest).getLastD first) first :: p.rangesAfter s first (second :: rest)

def isTail (segment : OwnerSegment) : Bool := 0 < segment.lo && segment.hi = p.totalPartitions - 1

def segmentsFor (ring : Ring) : List OwnerSegment :=
  let segments := (p.rangesFor s ring).flatMap fun r => r.linear p.totalPartitions
  (segments.filter fun segment => !p.isTail segment) ++ ((segments.filter p.isTail).getLast?).toList

def arcCount (arc : Option (Nat × Nat)) : Nat :=
  match arc with
  | none => 0
  | some (start, stop) =>
    if start = stop then p.totalPartitions
    else if start < stop then stop - start
    else p.totalPartitions - start + stop

end Partitioner

def InArc (arc : Option (Nat × Nat)) (pid : Nat) : Prop :=
  ∃ a ∈ arc, a.1 = a.2 ∨ a.1 < a.2 ∧ a.1 < pid ∧ pid ≤ a.2 ∨ a.2 < a.1 ∧ (pid ≤ a.2 ∨ a.1 < pid)

theorem PartitionRange.mem_linear_iff (r : PartitionRange) {pid : Nat} (h : pid < total) :
    (∃ segment ∈ r.linear total, segment.lo ≤ pid ∧ pid ≤ segment.hi) ↔ InArc r.arc pid := by
  obtain ⟨owner, pred, arc⟩ := r
  cases arc with
  | none => simp [linear, InArc]
  | some a =>
    obtain ⟨start, stop⟩ := a
    simp only [linear, InArc, Option.mem_some_iff, exists_eq_left']
    rcases Nat.lt_trichotomy start stop with hlt | heq | hgt
    · rw [if_neg (by omega), if_pos hlt]
      simp only [mem_singleton, exists_eq_left]
      omega
    · rw [if_pos heq]
      simp only [mem_singleton, exists_eq_left]
      omega
    · rw [if_neg (by omega), if_neg (by omega)]
      by_cases hroom : start + 1 < total
      · rw [if_pos hroom]
        simp only [mem_cons, not_mem_nil, or_false, exists_eq_or_imp, exists_eq_left]
        omega
      · rw [if_neg hroom]
        simp only [mem_singleton, exists_eq_left]
        omega

theorem PartitionRange.owner_of_mem_linear {r : PartitionRange} {segment : OwnerSegment}
    (h : segment ∈ r.linear total) : segment.owner = r.owner := by
  unfold linear at h
  split at h
  · cases h
  · split at h
    · rw [mem_singleton.mp h]
    · split at h
      · rw [mem_singleton.mp h]
      · rcases mem_cons.mp h with rfl | h
        · rfl
        · split at h
          · rw [mem_singleton.mp h]
          · cases h

namespace Ring

variable {ring : Ring} {v : VNode} {token : Int}

theorem successor_at {before after : List VNode} (hsplit : ring.vnodes = before ++ v :: after)
    (hbefore : ∀ u ∈ before, u.token < token) (hv : token ≤ v.token) : ring.successor token = .ok v := by
  have hwhile : ring.vnodes.takeWhile (fun u => u.token < token) = before := by
    rw [hsplit, takeWhile_append_of_pos fun u hu => decide_eq_true (hbefore u hu),
      takeWhile_cons_of_neg (by simpa using hv), append_nil]
  have hrotate : ring.vnodes.rotate (ring.bisectLeft token) = v :: (after ++ before) := by
    rw [bisectLeft, hwhile, hsplit, rotate_append_length_eq]
    rfl
  rw [successor, hrotate]

theorem successor_wrapped {rest : List VNode} (hsplit : ring.vnodes = v :: rest)
    (h : ∀ u ∈ ring.vnodes, u.token < token) : ring.successor token = .ok v := by
  have hwhile : ring.vnodes.takeWhile (fun u => u.token < token) = ring.vnodes :=
    takeWhile_eq_self_iff.mpr fun u hu => decide_eq_true (h u hu)
  have hrotate : ring.vnodes.rotate (ring.bisectLeft token) = v :: rest := by
    rw [bisectLeft, hwhile, rotate_length, hsplit]
  rw [successor, hrotate]

end Ring

namespace Partitioner

section Arithmetic

variable {p : Partitioner} {s : HashSpace} {token : Int} {pid : Nat}

theorem totalPartitions_pos : 0 < p.totalPartitions := by
  rw [totalPartitions, Nat.one_shiftLeft]
  positivity

section

variable (hbits : p.pshift < s.bits)

include hbits

theorem partitionStep_eq : p.partitionStep s = 2 ^ (s.bits - p.pshift) := by
  rw [partitionStep, HashSpace.max, Nat.one_shiftLeft, Nat.shiftRight_eq_div_pow, Nat.pow_div hbits.le (by decide)]

theorem max_eq : s.max = p.totalPartitions * p.partitionStep s := by
  rw [partitionStep_eq hbits, totalPartitions, HashSpace.max, Nat.one_shiftLeft, Nat.one_shiftLeft, ← Nat.pow_add]
  congr 1
  omega

theorem partitionStep_pos : 0 < p.partitionStep s := by
  rw [partitionStep_eq hbits]
  positivity

theorem pidForHash_eq (token : Nat) : p.pidForHash s token = token / p.partitionStep s := by
  rw [pidForHash, partitionStep_eq hbits, Nat.shiftRight_eq_div_pow]

theorem pidForHash_lt (h : 0 ≤ token ∧ token < s.max) : p.pidForHash s token.toNat < p.totalPartitions := by
  rw [pidForHash_eq hbits, Nat.div_lt_iff_lt_mul (partitionStep_pos hbits), ← max_eq hbits]
  exact (Int.toNat_lt h.1).mpr h.2

theorem pidForHash_mono {token' : Int} (h : token ≤ token') :
    p.pidForHash s token.toNat ≤ p.pidForHash s token'.toNat := by
  rw [pidForHash_eq hbits, pidForHash_eq hbits]
  exact Nat.div_le_div_right (Int.toNat_le_toNat h)

end

theorem pidForToken_eq (h : 0 ≤ token) : p.pidForToken s token = p.pidForHash s token.toNat := by
  obtain ⟨n, rfl⟩ := Int.eq_ofNat_of_zero_le h
  rfl

theorem partitionEnd_of_lt (hbits : p.pshift < s.bits) (h : pid + 1 < p.totalPartitions) :
    p.partitionEnd s pid = (pid + 1) * p.partitionStep s := by
  rw [partitionEnd, max_eq hbits, Nat.mod_eq_of_lt]
  exact Nat.mul_lt_mul_of_pos_right h (partitionStep_pos hbits)

theorem partitionEnd_last (hbits : p.pshift < s.bits) (h : pid + 1 = p.totalPartitions) :
    p.partitionEnd s pid = 0 := by
  rw [partitionEnd, max_eq hbits, h, Nat.mod_self]

theorem boundary_le_iff (hbits : p.pshift < s.bits) (h : 0 ≤ token) :
    (((pid + 1) * p.partitionStep s : Nat) : Int) ≤ token ↔ pid < p.pidForHash s token.toNat := by
  rw [← Int.le_toNat h, pidForHash_eq hbits, ← Nat.le_div_iff_mul_le (partitionStep_pos hbits)]
  exact Nat.succ_le_iff

theorem beforePid_lt (pid : Int) : p.beforePid pid < p.totalPartitions := by
  have hpos := p.totalPartitions_pos
  have hlt := Int.emod_lt_of_pos (pid - 1) (by omega : (0 : Int) < p.totalPartitions)
  rw [beforePid]
  omega

theorem beforePid_zero : p.beforePid (0 : Nat) = p.totalPartitions - 1 := by
  have hpos := p.totalPartitions_pos
  have hmod : ((0 : Int) - 1) % p.totalPartitions = p.totalPartitions - 1 := by
    rw [Int.emod_eq_iff (by omega)]
    exact ⟨by omega, by omega, ⟨1, by omega⟩⟩
  rw [beforePid, Nat.cast_zero, hmod]
  omega

theorem beforePid_pos (h0 : 0 < pid) (h : pid ≤ p.totalPartitions) : p.beforePid pid = pid - 1 := by
  have hmod : ((pid : Int) - 1) % p.totalPartitions = (pid : Int) - 1 :=
    Int.emod_eq_of_lt (by omega) (by omega)
  rw [beforePid, hmod]
  omega

end Arithmetic

section Ranges

variable {p : Partitioner} {s : HashSpace} {rest : List VNode} {ring : Ring} {segments : List OwnerSegment}
  {pred succ : VNode} {pid : Nat} {r : PartitionRange} {v first last second : VNode} {segment : OwnerSegment}

theorem arcFor_eq (hpred : 0 ≤ pred.token) (hsucc : 0 ≤ succ.token) : p.arcFor s pred succ =
      if pred.token = succ.token then none
      else if pred.token < succ.token ∧ p.pidForHash s pred.token.toNat = p.pidForHash s succ.token.toNat then
        none
      else some (p.beforePid (p.pidForHash s pred.token.toNat), p.beforePid (p.pidForHash s succ.token.toNat)) := by
  simp only [arcFor, pidForToken_eq hpred, pidForToken_eq hsucc, Nat.cast_inj]

section

variable (hbits : p.pshift < s.bits)

include hbits

theorem linear_between (hlt : pred.token < succ.token) (hpred : 0 ≤ pred.token) (hmax : succ.token < s.max) :
    (p.rangeFor s pred succ).linear p.totalPartitions =
      if p.pidForHash s pred.token.toNat = p.pidForHash s succ.token.toNat then []
      else [⟨p.pidForHash s pred.token.toNat, p.pidForHash s succ.token.toNat - 1, succ⟩] := by
  have hsucc := pidForHash_lt hbits ⟨hpred.trans hlt.le, hmax⟩
  have hmono := pidForHash_mono hbits hlt.le
  rw [rangeFor, PartitionRange.linear, arcFor_eq hpred (hpred.trans hlt.le), if_neg hlt.ne]
  generalize p.pidForHash s pred.token.toNat = a at hmono ⊢
  generalize p.pidForHash s succ.token.toNat = b at hmono hsucc ⊢
  by_cases heq : a = b
  · rw [if_pos ⟨hlt, heq⟩, if_pos heq]
  · rw [if_neg fun h => heq h.2, if_neg heq, beforePid_pos (by omega : 0 < b) (by omega)]
    rcases Nat.eq_zero_or_pos a with rfl | hpos
    · rw [beforePid_zero]
      dsimp only
      rw [if_neg (by omega), if_neg (by omega), if_neg (by omega)]
    · rw [beforePid_pos hpos (by omega)]
      dsimp only
      rw [if_neg (by omega), if_pos (by omega), Nat.sub_add_cancel hpos]

theorem linear_around (hlt : succ.token < pred.token) (hsucc : 0 ≤ succ.token) (hmax : pred.token < s.max) :
    (p.rangeFor s pred succ).linear p.totalPartitions =
      if p.pidForHash s succ.token.toNat = p.pidForHash s pred.token.toNat then [⟨0, p.totalPartitions - 1, succ⟩]
      else (if p.pidForHash s succ.token.toNat = 0 then [] else [⟨0, p.pidForHash s succ.token.toNat - 1, succ⟩]) ++
        [⟨p.pidForHash s pred.token.toNat, p.totalPartitions - 1, succ⟩] := by
  have hpred := pidForHash_lt hbits ⟨hsucc.trans hlt.le, hmax⟩
  have hmono := pidForHash_mono hbits hlt.le
  rw [rangeFor, PartitionRange.linear, arcFor_eq (hsucc.trans hlt.le) hsucc, if_neg hlt.ne', if_neg fun h => lt_asymm h.1 hlt]
  generalize p.pidForHash s pred.token.toNat = b at hmono hpred ⊢
  generalize p.pidForHash s succ.token.toNat = a at hmono ⊢
  by_cases heq : a = b
  · subst heq
    dsimp only
    rw [if_pos rfl, if_pos rfl]
  · rw [if_neg heq, beforePid_pos (by omega : 0 < b) (by omega)]
    rcases Nat.eq_zero_or_pos a with rfl | hpos
    · rw [beforePid_zero]
      dsimp only
      rw [if_neg (by omega), if_pos (by omega), if_pos rfl, Nat.sub_add_cancel (by omega),
        nil_append]
    · rw [beforePid_pos hpos (by omega)]
      dsimp only
      rw [if_neg (by omega), if_neg (by omega), if_pos (by omega), if_neg (by omega),
        Nat.sub_add_cancel (by omega)]
      rfl

end

structure Placed (s : HashSpace) (vnodes : List VNode) : Prop where
  ascending : vnodes.Pairwise fun u v => u.token < v.token
  inside : ∀ v ∈ vnodes, 0 ≤ v.token ∧ v.token < s.max

theorem Placed.tail (h : Placed s (v :: rest)) : Placed s rest :=
  ⟨(pairwise_cons.mp h.ascending).2, fun u hu => h.inside u (mem_cons_of_mem _ hu)⟩

theorem Placed.head_lt (h : Placed s (v :: rest)) :
    ∀ u ∈ rest, v.token < u.token := (pairwise_cons.mp h.ascending).1

def segmentTiles (a : Nat) (segments : List OwnerSegment) (b : Nat) : Prop :=
  Tiles OwnerSegment.lo OwnerSegment.hi a segments b

theorem tiles_rangesAfter (hbits : p.pshift < s.bits) (h : Placed s (pred :: rest)) :
    segmentTiles (p.pidForHash s pred.token.toNat)
      ((p.rangesAfter s pred rest).flatMap fun r => r.linear p.totalPartitions)
      (p.pidForHash s (rest.getLastD pred).token.toNat) := by
  induction rest generalizing pred with
  | nil => exact .nil _
  | cons succ rest ih =>
    have hlt := h.head_lt succ mem_cons_self
    have hmono := pidForHash_mono hbits hlt.le
    have hlast : (succ :: rest).getLastD pred = rest.getLastD succ := getLastD_cons ..
    rw [rangesAfter, flatMap_cons, linear_between hbits hlt (h.inside pred (by simp)).1
      (h.inside succ (by simp)).2, hlast]
    have hrest := ih h.tail
    by_cases heq : p.pidForHash s pred.token.toNat = p.pidForHash s succ.token.toNat
    · rw [if_pos heq, nil_append, heq]
      exact hrest
    · rw [if_neg heq]
      refine append (single rfl ?_ ?_) hrest
      · dsimp only
        omega
      · dsimp only
        omega

theorem owners_rangesAfter (pred : VNode) (rest : List VNode) :
    (p.rangesAfter s pred rest).map PartitionRange.owner = rest := by
  induction rest generalizing pred with
  | nil => rfl
  | cons succ rest ih => rw [rangesAfter, map_cons, ih, rangeFor]

theorem exists_of_mem_rangesAfter (h : r ∈ p.rangesAfter s pred rest) :
    ∃ before u v after, pred :: rest = before ++ u :: v :: after ∧ r = p.rangeFor s u v := by
  induction rest generalizing pred with
  | nil => cases h
  | cons succ rest ih =>
    rcases mem_cons.mp h with rfl | h
    · exact ⟨[], pred, succ, rest, rfl, rfl⟩
    · obtain ⟨before, u, v, after, hsplit, hr⟩ := ih h
      exact ⟨pred :: before, u, v, after, by rw [hsplit]; rfl, hr⟩

theorem routed_between (hbits : p.pshift < s.bits) (h : Placed s ring.vnodes) {before after : List VNode}
    {u : VNode} (hsplit : ring.vnodes = before ++ u :: v :: after) (hpid : pid < p.totalPartitions)
    (harc : InArc (p.rangeFor s u v).arc pid) : ring.successor (p.partitionEnd s pid) = .ok v := by
  have hsorted := h.ascending
  rw [hsplit] at hsorted
  obtain ⟨_, htail, hcross⟩ := pairwise_append.mp hsorted
  have hlt : u.token < v.token := (pairwise_cons.mp htail).1 v (by simp)
  have hmax := h.inside v (by rw [hsplit]; simp)
  have hpred := (h.inside u (by rw [hsplit]; simp)).1
  obtain ⟨segment, hsegment, hlow, hhigh⟩ := (PartitionRange.mem_linear_iff _ hpid).mpr harc
  rw [linear_between hbits hlt hpred hmax.2] at hsegment
  split at hsegment
  · cases hsegment
  · rename_i hne
    obtain rfl := mem_singleton.mp hsegment
    dsimp only at hlow hhigh
    have hbelow := pidForHash_lt hbits hmax
    have hmono := pidForHash_mono hbits hlt.le
    rw [partitionEnd_of_lt hbits (by omega)]
    have hring : ring.vnodes = (before ++ [u]) ++ v :: after := by simp [hsplit]
    refine Ring.successor_at hring ?_ ?_
    · intro w hw
      have hle : w.token ≤ u.token := by
        rcases mem_append.mp hw with hw | hw
        · exact (hcross w hw u (by simp)).le
        · rw [mem_singleton.mp hw]
      have hpidw := pidForHash_mono hbits hle
      have hw0 := (h.inside w (by rw [hring]; exact mem_append_left _ hw)).1
      rw [← not_le, boundary_le_iff hbits hw0]
      omega
    · rw [boundary_le_iff hbits hmax.1]
      omega

theorem routed_first (hbits : p.pshift < s.bits) (hnonneg : ∀ u ∈ ring.vnodes, 0 ≤ u.token) (hsplit : ring.vnodes = first :: rest)
    (hlast : ∀ u ∈ ring.vnodes, u.token ≤ last.token) (hpid : pid < p.totalPartitions)
    (h : pid < p.pidForHash s first.token.toNat ∨ p.pidForHash s last.token.toNat ≤ pid) :
    ring.successor (p.partitionEnd s pid) = .ok first := by
  have hring : ring.vnodes = [] ++ first :: rest := hsplit
  rcases Nat.lt_or_ge (pid + 1) p.totalPartitions with hlt | hge
  · rw [partitionEnd_of_lt hbits hlt]
    rcases h with hbefore | hafter
    · exact Ring.successor_at hring (by simp) ((boundary_le_iff hbits (hnonneg first (by simp [hsplit]))).mpr hbefore)
    · refine Ring.successor_wrapped hsplit ?_
      intro u hu
      have hmono := pidForHash_mono hbits (hlast u hu)
      rw [← not_le, boundary_le_iff hbits (hnonneg u hu)]
      omega
  · rw [partitionEnd_last hbits (by omega)]
    exact Ring.successor_at hring (by simp) (hnonneg first (by simp [hsplit]))

theorem routed_around (hbits : p.pshift < s.bits) (h : Placed s ring.vnodes)
    (hsplit : ring.vnodes = first :: rest) (hin : last ∈ rest)
    (hlast : ∀ u ∈ ring.vnodes, u.token ≤ last.token) (hpid : pid < p.totalPartitions)
    (harc : InArc (p.rangeFor s last first).arc pid) : ring.successor (p.partitionEnd s pid) = .ok first := by
  have hplaced := h
  rw [hsplit] at hplaced
  have hlt : first.token < last.token := hplaced.head_lt last hin
  have hmax := (hplaced.inside last (mem_cons_of_mem _ hin)).2
  have hfirst := (hplaced.inside first mem_cons_self).1
  obtain ⟨segment, hsegment, hlow, hhigh⟩ := (PartitionRange.mem_linear_iff _ hpid).mpr harc
  refine routed_first hbits (fun u hu => (h.inside u hu).1) hsplit hlast hpid ?_
  rw [linear_around hbits hlt hfirst hmax] at hsegment
  split at hsegment
  · omega
  · rcases mem_append.mp hsegment with hsegment | hsegment
    · split at hsegment
      · cases hsegment
      · obtain rfl := mem_singleton.mp hsegment
        dsimp only at hhigh
        omega
    · obtain rfl := mem_singleton.mp hsegment
      exact .inr hlow

theorem Placed.last_mem : (second :: rest).getLastD first ∈ second :: rest := by
  rw [getLastD_cons]
  exact getLastD_mem_cons

theorem Placed.le_last (h : Placed s (v :: rest)) : ∀ u ∈ v :: rest, u.token ≤ (rest.getLastD v).token := by
  induction rest generalizing v with
  | nil =>
    intro u hu
    rw [mem_singleton.mp hu]
    exact le_rfl
  | cons succ rest ih =>
    rw [getLastD_cons]
    intro u hu
    rcases mem_cons.mp hu with rfl | hu
    · exact (h.head_lt succ (by simp)).le.trans (ih h.tail succ (by simp))
    · exact ih h.tail u hu

theorem rangesFor_cons (hsplit : ring.vnodes = first :: second :: rest) :
    p.rangesFor s ring = p.rangeFor s ((second :: rest).getLastD first) first ::
      p.rangesAfter s first (second :: rest) := by
  rw [rangesFor, hsplit]

theorem rangesFor_single (hsplit : ring.vnodes = [v]) (hv : 0 ≤ v.token) :
    p.rangesFor s ring = [⟨v, v, some (p.beforePid (p.pidForHash s v.token.toNat),
      p.beforePid (p.pidForHash s v.token.toNat))⟩] := by
  rw [rangesFor, hsplit]
  dsimp only
  rw [pidForToken_eq hv]

theorem arcFor_lt {a : Nat × Nat} (h : a ∈ p.arcFor s pred succ) : a.1 < p.totalPartitions := by
  unfold arcFor at h
  dsimp only at h
  split at h
  · cases h
  · split at h
    · cases h
    · cases h
      exact beforePid_lt _

theorem arc_lt (hr : r ∈ p.rangesFor s ring) : ∀ a ∈ r.arc, a.1 < p.totalPartitions := by
  intro a ha
  unfold rangesFor at hr
  split at hr
  · cases hr
  · rw [mem_singleton.mp hr] at ha
    cases ha
    exact beforePid_lt _
  · rcases mem_cons.mp hr with rfl | hr
    · exact arcFor_lt ha
    · obtain ⟨_, u, v, _, _, rfl⟩ := exists_of_mem_rangesAfter hr
      exact arcFor_lt ha

theorem arcCount_eq_widths (h : ∀ a ∈ r.arc, a.1 < p.totalPartitions) : p.arcCount r.arc =
      ((r.linear p.totalPartitions).map fun segment => segment.hi - segment.lo + 1).sum := by
  have hpos := totalPartitions_pos (p := p)
  obtain ⟨owner, pred, arc⟩ := r
  cases arc with
  | none => rfl
  | some arc =>
    obtain ⟨start, stop⟩ := arc
    have hstart := h _ rfl
    dsimp only [arcCount, PartitionRange.linear] at hstart ⊢
    split
    · simp only [map_singleton, sum_singleton]
      omega
    · split
      · simp only [map_singleton, sum_singleton]
        omega
      · split
        · simp only [map_cons, map_nil, sum_cons, sum_nil]
          omega
        · simp only [map_singleton, sum_singleton]
          omega

theorem owners_rangesFor (ring : Ring) : (p.rangesFor s ring).map PartitionRange.owner = ring.vnodes := by
  unfold rangesFor
  split
  · rename_i heq
    rw [heq, map_nil]
  · rename_i heq
    rw [heq, map_singleton]
  · rename_i heq
    rw [heq, map_cons, owners_rangesAfter, rangeFor]

theorem routed_rangesFor (hbits : p.pshift < s.bits) (h : Placed s ring.vnodes) (hr : r ∈ p.rangesFor s ring)
    (hpid : pid < p.totalPartitions) (harc : InArc r.arc pid) :
    ring.successor (p.partitionEnd s pid) = .ok r.owner := by
  match hsplit : ring.vnodes with
  | [] =>
    rw [rangesFor, hsplit] at hr
    cases hr
  | [v] =>
    have hv := (h.inside v (by simp [hsplit])).1
    rw [rangesFor_single hsplit hv] at hr
    rw [mem_singleton.mp hr]
    have hlast : ∀ u ∈ ring.vnodes, u.token ≤ v.token := by
      rw [hsplit]
      exact fun u hu => by rw [mem_singleton.mp hu]
    exact routed_first hbits (fun u hu => (h.inside u hu).1) hsplit hlast hpid (Nat.lt_or_ge _ _)
  | first :: second :: rest =>
    rw [rangesFor_cons hsplit] at hr
    rcases mem_cons.mp hr with rfl | hr
    · exact routed_around hbits h hsplit Placed.last_mem (hsplit ▸ (hsplit ▸ h).le_last) hpid harc
    · obtain ⟨before, u, v, after, hparts, rfl⟩ := exists_of_mem_rangesAfter hr
      exact routed_between hbits h (hsplit.trans hparts) hpid harc

theorem filter_plain (h : ∀ segment ∈ segments, p.isTail segment = false) :
    (segments.filter fun segment => !p.isTail segment) = segments :=
  filter_eq_self.mpr fun segment hs => by rw [h segment hs]; rfl

theorem filter_isTail_plain (h : ∀ segment ∈ segments, p.isTail segment = false) : segments.filter p.isTail = [] :=
  filter_eq_nil_iff.mpr fun segment hs => by rw [h segment hs]; simp

theorem segmentsFor_of_plain (h : ((p.rangesFor s ring).flatMap fun r => r.linear p.totalPartitions) = segments)
    (hplain : ∀ segment ∈ segments, p.isTail segment = false) : p.segmentsFor s ring = segments := by
  rw [segmentsFor, h, filter_plain hplain, filter_isTail_plain hplain, getLast?_nil, Option.toList_none, append_nil]

theorem segmentsFor_of_tail {before after : List OwnerSegment} {tail : OwnerSegment}
    (h : ((p.rangesFor s ring).flatMap fun r => r.linear p.totalPartitions) = before ++ [tail] ++ after)
    (hbefore : ∀ segment ∈ before, p.isTail segment = false)
    (hafter : ∀ segment ∈ after, p.isTail segment = false) (htail : p.isTail tail = true) :
    p.segmentsFor s ring = before ++ after ++ [tail] := by
  rw [segmentsFor, h]
  simp [filter_plain hbefore, filter_plain hafter, filter_isTail_plain hbefore, filter_isTail_plain hafter, htail]

theorem tiles_segmentsFor (hbits : p.pshift < s.bits) (hne : ring.vnodes ≠ []) (h : Placed s ring.vnodes) :
    segmentTiles 0 (p.segmentsFor s ring) p.totalPartitions ∧
      (p.segmentsFor s ring).Perm ((p.rangesFor s ring).flatMap fun r => r.linear p.totalPartitions) := by
  have hpos := totalPartitions_pos (p := p)
  have hwhole (v : VNode) : segmentTiles 0 [⟨0, p.totalPartitions - 1, v⟩] p.totalPartitions :=
    single rfl (Nat.zero_le _) (Nat.sub_add_cancel hpos)
  match hsplit : ring.vnodes with
  | [] => exact absurd hsplit hne
  | [v] =>
    have hflat : ((p.rangesFor s ring).flatMap fun r => r.linear p.totalPartitions) =
        [⟨0, p.totalPartitions - 1, v⟩] := by
      rw [rangesFor_single hsplit (h.inside v (by simp [hsplit])).1]
      simp [PartitionRange.linear]
    rw [segmentsFor_of_plain hflat (by simp [isTail]), hflat]
    exact ⟨hwhole v, .refl _⟩
  | first :: second :: rest =>
    rw [hsplit] at h
    have hin : (second :: rest).getLastD first ∈ second :: rest := Placed.last_mem
    have hlt := h.head_lt _ hin
    have hmax := h.inside _ (mem_cons_of_mem _ hin)
    have hfirst := (h.inside first mem_cons_self).1
    have hbelow := pidForHash_lt hbits hmax
    have hchain := tiles_rangesAfter hbits h
    have hflat := congrArg (flatMap fun r => r.linear p.totalPartitions)
      (rangesFor_cons (p := p) (s := s) hsplit)
    rw [flatMap_cons, linear_around hbits hlt hfirst hmax.2] at hflat
    generalize ((p.rangesAfter s first (second :: rest)).flatMap fun r => r.linear p.totalPartitions) =
      chain at hchain hflat
    have hplain : ∀ segment ∈ chain, p.isTail segment = false := by
      intro segment hs
      obtain ⟨_, _, hhigh⟩ := hchain.bounds segment hs
      have hne : segment.hi ≠ p.totalPartitions - 1 := by omega
      simp [isTail, hne]
    by_cases heq : p.pidForHash s first.token.toNat = p.pidForHash s ((second :: rest).getLastD first).token.toNat
    · rw [← heq] at hchain
      rw [if_pos heq, hchain.eq_nil, append_nil] at hflat
      rw [segmentsFor_of_plain hflat (by simp [isTail]), hflat]
      exact ⟨hwhole first, .refl _⟩
    · rw [if_neg heq] at hflat
      have hle := hchain.le
      rw [segmentsFor_of_tail hflat ?_ hplain ?_, hflat]
      · refine ⟨append (append ?_ hchain) (single rfl ?_ ?_), ?_⟩
        · split
          · rename_i hzero
            rw [hzero]
            exact .nil _
          · refine single rfl (Nat.zero_le _) ?_
            dsimp only
            omega
        · dsimp only
          omega
        · dsimp only
          omega
        · rw [append_assoc, append_assoc]
          exact perm_append_comm.append_left _
      · intro segment hs
        split at hs
        · cases hs
        · rw [mem_singleton.mp hs]
          simp [isTail]
      · have hbefore : 0 < p.pidForHash s ((second :: rest).getLastD first).token.toNat := by omega
        simp only [isTail, hbefore, decide_true, Bool.and_self]

theorem sum_arcCount (hbits : p.pshift < s.bits) (hne : ring.vnodes ≠ []) (h : Placed s ring.vnodes) :
    ((p.rangesFor s ring).map fun r => p.arcCount r.arc).sum = p.totalPartitions := by
  obtain ⟨htiles, hperm⟩ := tiles_segmentsFor hbits hne h
  rw [map_congr_left fun r hr => arcCount_eq_widths (arc_lt hr)]
  have hsum := (hperm.map fun segment => segment.hi - segment.lo + 1).sum_eq
  rw [map_flatMap, flatMap_def, sum_flatten, map_map] at hsum
  exact hsum.symm.trans htiles.sum_widths

theorem exists_range_of_mem_segmentsFor (h : segment ∈ p.segmentsFor s ring) :
    ∃ r ∈ p.rangesFor s ring, segment ∈ r.linear p.totalPartitions := by
  rw [segmentsFor] at h
  rcases mem_append.mp h with h | h
  · exact mem_flatMap.mp (mem_of_mem_filter h)
  · rw [Option.mem_toList] at h
    exact mem_flatMap.mp (mem_of_mem_filter (mem_of_getLast? h))

theorem routed_segment (hbits : p.pshift < s.bits) (h : Placed s ring.vnodes)
    (hs : segment ∈ p.segmentsFor s ring) (hpid : pid < p.totalPartitions)
    (hin : segment.lo ≤ pid ∧ pid ≤ segment.hi) : ring.successor (p.partitionEnd s pid) = .ok segment.owner := by
  obtain ⟨r, hr, hlinear⟩ := exists_range_of_mem_segmentsFor hs
  rw [PartitionRange.owner_of_mem_linear hlinear]
  exact routed_rangesFor hbits h hr hpid ((r.mem_linear_iff hpid).mp ⟨segment, hlinear, hin⟩)

theorem inArc_iff_routed (hbits : p.pshift < s.bits) (hne : ring.vnodes ≠ []) (h : Placed s ring.vnodes)
    (hr : r ∈ p.rangesFor s ring) (hpid : pid < p.totalPartitions) :
    InArc r.arc pid ↔ ring.successor (p.partitionEnd s pid) = .ok r.owner := by
  constructor
  · exact routed_rangesFor hbits h hr hpid
  · intro hrouted
    obtain ⟨segment, hs, hin⟩ := ((tiles_segmentsFor hbits hne h).1.mem_iff pid).mp ⟨Nat.zero_le _, hpid⟩
    obtain ⟨r', hr', hlinear⟩ := exists_range_of_mem_segmentsFor hs
    have harc := (r'.mem_linear_iff hpid).mp ⟨segment, hlinear, hin⟩
    have howner : r'.owner = r.owner :=
      Except.ok.inj ((routed_rangesFor hbits h hr' hpid harc).symm.trans hrouted)
    have hnodup : ((p.rangesFor s ring).map PartitionRange.owner).Nodup := by
      rw [owners_rangesFor]
      exact h.ascending.imp fun hlt heq => hlt.ne (congrArg VNode.token heq)
    rwa [← inj_on_of_nodup_map hnodup hr' hr howner]

end Ranges

theorem placed_of_distinct {s : HashSpace} {ring : Ring} (hdistinct : (ring.vnodes.map VNode.token).Nodup)
    (hinside : ∀ v ∈ ring.vnodes, 0 ≤ v.token ∧ v.token < s.max) : Placed s ring.vnodes where
  ascending := by
    refine (ring.sorted.and (pairwise_map.mp hdistinct)).imp ?_
    rintro u v ⟨hle, hne⟩
    exact lt_of_le_of_ne hle hne
  inside := hinside

theorem segments_agree_with_routing (p : Partitioner) (s : HashSpace) (hbits : p.pshift < s.bits)
    (ring : Ring) (hne : ring.vnodes ≠ []) (hdistinct : (ring.vnodes.map VNode.token).Nodup)
    (hinside : ∀ v ∈ ring.vnodes, 0 ≤ v.token ∧ v.token < 2 ^ s.bits) :
    (p.segmentsFor s ring).Pairwise (fun a b => a.hi < b.lo) ∧
    (∀ segment ∈ p.segmentsFor s ring, segment.lo ≤ segment.hi) ∧ (∀ pid, pid < p.totalPartitions ↔
      ∃ segment ∈ p.segmentsFor s ring, segment.lo ≤ pid ∧ pid ≤ segment.hi) ∧
    (∀ segment ∈ p.segmentsFor s ring, ∀ pid, segment.lo ≤ pid → pid ≤ segment.hi →
      ring.successor (p.partitionFor s pid).stop = .ok segment.owner) ∧
    ((p.rangesFor s ring).map fun r => p.arcCount r.arc).sum = p.totalPartitions ∧
    (p.rangesFor s ring).map PartitionRange.owner = ring.vnodes ∧
    ∀ r ∈ p.rangesFor s ring, ∀ pid < p.totalPartitions,
      InArc r.arc pid ↔ ring.successor (p.partitionFor s pid).stop = .ok r.owner := by
  have hplaced : Placed s ring.vnodes := by
    refine placed_of_distinct hdistinct ?_
    rw [HashSpace.max, Nat.one_shiftLeft]
    exact_mod_cast hinside
  have htiles := (tiles_segmentsFor hbits hne hplaced).1
  have hcover (pid : Nat) : pid < p.totalPartitions ↔
      ∃ segment ∈ p.segmentsFor s ring, segment.lo ≤ pid ∧ pid ≤ segment.hi := by
    rw [← htiles.mem_iff pid]
    exact ⟨fun h => ⟨Nat.zero_le _, h⟩, fun h => h.2⟩
  refine ⟨htiles.pairwise, fun segment hs => (htiles.bounds segment hs).2.1, hcover, ?_,
    sum_arcCount hbits hne hplaced, owners_rangesFor ring,
    fun r hr pid hpid => inArc_iff_routed hbits hne hplaced hr hpid⟩
  intro segment hs pid hlow hhigh
  exact routed_segment hbits hplaced hs ((hcover pid).mpr ⟨segment, hs, hlow, hhigh⟩) ⟨hlow, hhigh⟩

end Partitioner

namespace Sample

def quartered : Partitioner := ⟨2, 1, Nat.one_lt_two⟩

def nibble : HashSpace := ⟨4, fun _ => 0⟩

def pairRing : Ring := ⟨[⟨2, "a"⟩, ⟨6, "b"⟩], by decide⟩

theorem pair_segments : quartered.segmentsFor nibble pairRing = [⟨0, 0, ⟨6, "b"⟩⟩, ⟨1, 3, ⟨2, "a"⟩⟩] ∧
    ((quartered.rangesFor nibble pairRing).map fun r => quartered.arcCount r.arc).sum =
      quartered.totalPartitions :=
  ⟨by decide, (Partitioner.segments_agree_with_routing quartered nibble (by decide) pairRing
    (by decide) (by decide) (by decide)).2.2.2.2.1⟩

end Sample

end Tourillon
