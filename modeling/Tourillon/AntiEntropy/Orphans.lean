import Tourillon.AntiEntropy.Plan
import Tourillon.AntiEntropy.Undisturbed
import Tourillon.AntiEntropy.Watch

namespace Tourillon

open Endian Exceptional Prog Protocol List LocalStore SweepUnit Yields ReplicaView Service

def SweepUnit.after (u : SweepUnit) : Option Nat := if u.lo = 0 then none else some (u.lo - 1)

def visitedPids (view : ReplicaView) (hi : Nat) (roots : List (Nat × DigestCell)) : List Nat :=
  (roots.map Prod.fst).filter fun pid => pid < hi && !view.isReplica pid view.nodeId

theorem SweepUnit.above_after {u : SweepUnit} {pid : Nat} : (∀ a ∈ u.after, a < pid) ↔ u.lo ≤ pid := by
  unfold after
  split
  · rename_i hzero
    simp [hzero]
  · rename_i hpos
    simp only [Option.mem_def, Option.some.injEq, forall_eq']
    omega

theorem length_le_of_sorted {roots : List (Nat × DigestCell)}
    (hsorted : roots.Pairwise fun a b => a.1 < b.1) {lo b : Nat} (hlo : ∀ e ∈ roots, lo ≤ e.1)
    (hlast : roots.getLast?.map Prod.fst = some b) : lo + roots.length ≤ b + 1 := by
  induction roots generalizing lo with
  | nil => cases hlast
  | cons e roots ih =>
    obtain ⟨hhead, htail⟩ := pairwise_cons.mp hsorted
    have hle := hlo e mem_cons_self
    cases roots with
    | nil =>
      cases hlast
      exact Nat.add_le_add_right hle 1
    | cons d roots =>
      rw [getLast?_cons_cons] at hlast
      have hrest := ih htail (fun x hx => hle.trans_lt (hhead x hx)) hlast
      rw [length_cons]
      omega

section Paging

variable [Blake2b] {c : Cluster} {node : String} {pid : Nat} {w : World} {u : SweepUnit} {sh : Shared}
  {after next : Option Nat} {limit : Nat} {w' : World} {roots : List (Nat × DigestCell)} {view : ReplicaView}

structure Resident (c : Cluster) (node : String) (pid : Nat) (sh : Shared) : Prop where
  good : ∀ group, GoodGroup c group (sh.storage node group)
  stored : ∃ k ∈ c.heldBy sh node pid, k.pid = pid

def Residing (c : Cluster) (node : String) (pid : Nat) : Prop :=
  ∀ tick sh, Resident c node pid sh → Resident c node pid (c.env.step tick sh)

theorem Resident.pid_lt (h : Resident c node pid sh) : pid < 256 ^ pidSize := by
  obtain ⟨k, hk, rfl⟩ := h.stored
  exact ((h.good _).toSound.encodable_of_held hk).1

theorem Resident.counted (h : Resident c node pid sh) :
    (sh.storage node (c.groupFor pid)).counted (rootRef pid) ≠ ∅ := by
  obtain ⟨k, hk, hpid⟩ := h.stored
  have hkey := (h.good _).toSound.encodable_of_held hk
  refine Finset.ne_empty_of_mem (a := k) (Finset.mem_filter.mpr ⟨hk, ?_⟩)
  exact (mem_cellRefs_root hkey h.pid_lt).mpr hpid

def residence (c : Cluster) (node : String) (pid : Nat) : Protocol World where
  inv w := Resident c node pid w.shared
  move w w' := Resident c node pid w'.shared ∧ ∀ A ∈ w.folds, A ∈ w'.folds
  keeps _ hm := hm.1

theorem residence_watch (henv : Residing c node pid) : Watch (residence c node pid) c node fun group g _ =>
      group = c.groupFor pid → g.counted (rootRef pid) ≠ ∅ where
  good w hw group := hw.good group
  env w hw := ⟨henv w.tick w.shared hw, fun _ hA => hA⟩
  fold w sets hw := ⟨hw, fun _ hA => mem_append_right _ hA⟩
  now w group hw := by
    rintro rfl
    exact hw.counted
  stable _ _ _ _ _ _ h := h
  folded A _ _ _ hm hA := hm.2 A hA

theorem undisturbed_resident (henv : Residing c node pid) :
    Undisturbed c fun w => Resident c node pid w.shared where
  step w hw := henv w.tick w.shared hw
  fold _ _ hw := hw

def pageRank (c : Cluster) (limit : Nat) (b : Nat × List (Nat × DigestCell) × Option Nat) : Nat :=
  2 * (c.partitioner.totalGroups - b.1) + if b.2.1.length < limit then 1 else 0

theorem yields_rootPage (henv : Residing c node pid) (ha : ∀ a ∈ after, a < 256 ^ pidSize) (hl : 1 ≤ limit)
    (hfuel : 2 * c.partitioner.totalGroups + 1 < c.fuel) :
    Yields (fun w => Resident c node pid w.shared) (rootPage c node after limit)
      fun r => ∀ b ∈ r.2, limit ≤ r.1.length ∧ r.1.getLast?.map Prod.fst = some b := by
  refine iterate (J := fun b => ∀ x ∈ b.2.2, x < 256 ^ pidSize) (pageRank c limit) ?_ ha ?_
  · rintro ⟨group, roots, cursor⟩ hcursor
    dsimp only
    split
    · exact ret nofun
    rename_i hgroup
    split
    · rename_i hroom
      refine bind (M := fun r : List (Nat × DigestCell) × Option Nat =>
        (∀ e ∈ r.1, e.1 < 256 ^ pidSize) ∧ (r.2.isSome → r.1.length = limit - roots.length))
        ((undisturbed_resident henv).foldSession ?_ _) ?_
      · intro w hw
        have hclean := (hw.good group).toClean
        obtain ⟨cells, more, hpage, hfull⟩ := rootPage_ok hclean hcursor (Nat.sub_pos_of_lt hroom)
        exact ⟨(cells, more), hpage, fun e he => ((rootPage_cells hclean hpage).listed e he).1, hfull⟩
      · rintro ⟨page, more⟩ ⟨hbound, hfull⟩
        have hnext : ∀ x ∈ (page.getLast?.map Prod.fst).or cursor, x < 256 ^ pidSize := by
          intro x hx
          cases hlast : page.getLast? with
          | none =>
            rw [hlast] at hx
            exact hcursor x hx
          | some e =>
            rw [hlast] at hx
            cases hx
            exact hbound e (mem_of_getLast? hlast)
        cases more with
        | some m =>
          apply ret
          refine ⟨hnext, ?_⟩
          have hlength : page.length = limit - roots.length := hfull rfl
          simp only [pageRank, length_append]
          split <;> omega
        | none =>
          dsimp only
          rw [if_pos Option.isNone_none]
          split
          · rename_i hlen
            apply ret
            intro b hb
            exact ⟨hlen, hb⟩
          · rename_i hshort
            apply ret
            refine ⟨hnext, ?_⟩
            simp only [pageRank]
            split <;> omega
    · rename_i hfull
      have hne : roots ≠ [] := by
        rintro rfl
        exact hfull hl
      rw [getLast?_eq_getLast_of_ne_nil hne]
      apply ret
      intro b hb
      cases hb
      exact ⟨Nat.not_lt.mp hfull, by rw [getLast?_eq_getLast_of_ne_nil hne]; rfl⟩
  · unfold pageRank
    split <;> omega

def Visits (c : Cluster) (node : String) (view : ReplicaView) (u : SweepUnit) (pid : Nat) (w : World) :
    Prop :=
  ∃ roots next w', rootPage c node u.after (u.hi - u.lo) w = (.ok (roots, next), w') ∧
    pid ∈ visitedPids view u.hi roots

variable (henv : Residing c node pid)

include henv

theorem rootPage_listed (hw : Resident c node pid w.shared)
    (hrun : rootPage c node after limit w = (.ok (roots, next), w')) :
    Watch.RootsListed c (fun group g _ => group = c.groupFor pid → g.counted (rootRef pid) ≠ ∅)
      after next roots w' := by
  obtain ⟨_, hpost⟩ := (residence_watch henv).spec_rootPage after limit w hw trivial
  rw [hrun] at hpost
  exact hpost (roots, next) rfl

theorem mem_rootPage (hw : Resident c node pid w.shared) (hlo : u.lo ≤ pid) (hhi : pid < u.hi)
    (htotal : pid < c.partitioner.totalPartitions)
    (hrun : rootPage c node u.after (u.hi - u.lo) w = (.ok (roots, next), w'))
    (hfull : ∀ b ∈ next, u.hi - u.lo ≤ roots.length ∧ roots.getLast?.map Prod.fst = some b) :
    pid ∈ roots.map Prod.fst := by
  have hlisted := rootPage_listed henv hw hrun
  have hbefore : ∀ b ∈ next, pid ≤ b := by
    intro b hb
    obtain ⟨hlength, hlast⟩ := hfull b hb
    have hcount := length_le_of_sorted hlisted.sorted
      (fun e he => above_after.mp (hlisted.above e he)) hlast
    omega
  rcases hlisted.covered pid hw.pid_lt (c.partitioner.groupFor_lt htotal)
    (above_after.mpr hlo) hbefore with hmem | ⟨g, hobs, hempty⟩
  · exact hmem
  · exact absurd hempty (hobs rfl)

theorem visits_of_mem (hlo : u.lo ≤ pid) (hhi : pid < u.hi) (htotal : pid < c.partitioner.totalPartitions)
    (hfuel : 2 * c.partitioner.totalGroups + 1 < c.fuel) (horphan : view.isReplica pid view.nodeId = false)
    (hw : Resident c node pid w.shared) : Visits c node view u pid w := by
  have hafter : ∀ a ∈ u.after, a < 256 ^ pidSize := by
    intro a ha
    exact (above_after.mpr hlo a ha).trans hw.pid_lt
  obtain ⟨⟨roots, next⟩, w', hrun, _, hfull⟩ :=
    yields_rootPage henv hafter (Nat.sub_pos_of_lt (hlo.trans_lt hhi)) hfuel w hw
  refine ⟨roots, next, w', hrun, mem_filter.mpr ⟨?_, ?_⟩⟩
  · exact mem_rootPage henv hw hlo hhi htotal hrun hfull
  · simp [hhi, horphan]

theorem range_of_visits (hw : Resident c node pid w.shared) (h : Visits c node view u pid w) :
    u.lo ≤ pid ∧ pid < u.hi := by
  obtain ⟨roots, next, w', hrun, hmem⟩ := h
  obtain ⟨hroot, hhi⟩ := mem_filter.mp hmem
  obtain ⟨e, he, rfl⟩ := mem_map.mp hroot
  have habove := (rootPage_listed henv hw hrun).above e he
  rw [Bool.and_eq_true, decide_eq_true_iff] at hhi
  exact ⟨above_after.mp habove, hhi.1⟩

end Paging

section Marks

variable [Blake2b] {c : Cluster} {sv : Service} {view : ReplicaView} {hi : Nat}
  {handed : List (Nat × (BitVec 128 × Bytes))} {root : Nat × DigestCell}

theorem orphanMark_eq_some {m : Nat × (BitVec 128 × Bytes)} (h : orphanMark view hi handed root = .ok (some m)) :
    m.1 = root.1 ∧ root.1 < hi ∧ view.isReplica root.1 view.nodeId = false ∧ root.2.toBytes = .ok m.2.2 := by
  unfold orphanMark at h
  split at h
  · cases h
  rename_i hlt
  split at h
  · cases h
  rename_i peers hpeers
  split at h
  · cases h
  rename_i hrep
  simp only [bind_eq_ok, pure_eq_ok] at h
  obtain ⟨hash, _, cell, hcell, hm⟩ := h
  split at hm
  · cases hm
  cases hm
  refine ⟨rfl, Nat.not_le.mp hlt, ?_, hcell⟩
  rw [isReplica, replicasOf, getD_eq_getElem?_getD, hpeers, decide_eq_false_iff_not]
  exact fun hin => hrep (.inl hin)

theorem orphanMark_found {found : Option (Nat × (BitVec 128 × Bytes))}
    (h : orphanMark view hi handed root = .ok found) (hhi : root.1 < hi)
    (horphan : view.isReplica root.1 view.nodeId = false) (hpeers : view.replicasOf root.1 ≠ [])
    (hfresh : handed.lookup root.1 = none) : ∃ m, found = some m ∧ m.1 = root.1 := by
  unfold orphanMark at h
  rw [if_neg (Nat.not_le.mpr hhi)] at h
  rw [isReplica, decide_eq_false_iff_not] at horphan
  rw [replicasOf, getD_eq_getElem?_getD] at horphan hpeers
  cases hget : view.replicas[root.1]? with
  | none =>
    rw [hget] at h
    cases h
  | some peers =>
    rw [hget, Option.getD_some] at horphan hpeers
    rw [hget] at h
    dsimp only at h
    rw [if_neg (not_or.mpr ⟨horphan, hpeers⟩)] at h
    simp only [bind_eq_ok, pure_eq_ok, hfresh] at h
    obtain ⟨hash, _, cell, _, hm⟩ := h
    rw [if_neg nofun] at hm
    exact ⟨_, hm.symm, rfl⟩

theorem orphans_run {u : SweepUnit} {w w' : World} {marks : List (Nat × (BitVec 128 × Bytes))}
    (h : sv.orphans c u view w = (.ok marks, w')) :
    ∃ roots next, rootPage c sv.node u.after (u.hi - u.lo) w = (.ok (roots, next), w') ∧
      roots.filterMapM (orphanMark view u.hi w'.shared.handed) = .ok marks := by
  obtain ⟨⟨roots, next⟩, w₁, hpage, hrest⟩ := of_bind_ok h
  obtain ⟨w₂, w₃, hget, hmarks⟩ := of_bind_ok hrest
  cases hget
  have hpair := Prod.mk.inj hmarks
  obtain ⟨hfound, rfl⟩ := hpair
  exact ⟨roots, next, hpage, mapError_eq_ok hfound⟩

variable {pid : Nat} {u : SweepUnit} {w w' : World} {marks : List (Nat × (BitVec 128 × Bytes))}

theorem range_of_marked (henv : Residing c sv.node pid) (hw : Resident c sv.node pid w.shared)
    (hrun : sv.orphans c u view w = (.ok marks, w')) (hmarked : pid ∈ marks.map Prod.fst) :
    u.lo ≤ pid ∧ pid < u.hi := by
  obtain ⟨roots, next, hpage, hmarks⟩ := orphans_run hrun
  obtain ⟨m, hm, rfl⟩ := mem_map.mp hmarked
  obtain ⟨_, hmem⟩ := filterMapM_sublist Prod.fst Prod.fst
    (fun e m he => (orphanMark_eq_some he).1) hmarks
  obtain ⟨e, he, hmark⟩ := hmem m hm
  obtain ⟨hpid, hhi, _⟩ := orphanMark_eq_some hmark
  rw [hpid]
  exact ⟨above_after.mp ((rootPage_listed henv hw hpage).above e he), hhi⟩

theorem marked_of_visits (hvisit : Visits c sv.node view u pid w)
    (hrun : sv.orphans c u view w = (.ok marks, w')) (hpeers : view.replicasOf pid ≠ [])
    (hfresh : w'.shared.handed.lookup pid = none) : pid ∈ marks.map Prod.fst := by
  obtain ⟨roots, next, hpage, hmarks⟩ := orphans_run hrun
  obtain ⟨roots', next', w₁, hpage', hvisited⟩ := hvisit
  rw [hpage] at hpage'
  cases hpage'
  obtain ⟨hroot, hcond⟩ := mem_filter.mp hvisited
  rw [Bool.and_eq_true, decide_eq_true_iff, Bool.not_eq_true'] at hcond
  obtain ⟨e, he, rfl⟩ := mem_map.mp hroot
  obtain ⟨found, hfound, hkept⟩ := mem_filterMapM hmarks he
  obtain ⟨m, rfl, hpid⟩ := orphanMark_found hfound hcond.1 hcond.2 hpeers hfresh
  exact mem_map.mpr ⟨m, hkept m rfl, hpid⟩

end Marks

end Tourillon
