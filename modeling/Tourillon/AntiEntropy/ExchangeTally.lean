import Tourillon.AntiEntropy.Service

namespace Tourillon

open Exceptional Sequence Exchange List ReplicaView

variable {zs : List Handled} {replicas : List String} {pid : Nat} {x : Handled} {peer : String}

abbrev Handled := (String × List Nat) × PeerOutcome

def Handled.reaches (pid : Nat) (x : Handled) : Bool :=
  match x.2 with
  | .completed recent => pid ∉ recent
  | _ => false

theorem Handled.reaches_iff : x.reaches pid = true ↔ ∃ recent, x.2 = .completed recent ∧ pid ∉ recent := by
  unfold Handled.reaches
  split
  · rename_i recent heq
    rw [heq, decide_eq_true_iff]
    constructor
    · intro h
      exact ⟨recent, rfl, h⟩
    · rintro ⟨recent', hr, h⟩
      cases hr
      exact h
  · rename_i hne
    constructor
    · intro h
      cases h
    · rintro ⟨recent, hr, _⟩
      exact absurd hr (hne recent)

namespace Exchange

variable (zs : List Handled)

theorem skipped_foldl (r : Exchange) :
    (zs.foldl record r).skipped = r.skipped ++ (zs.filter fun x => x.2 = .skipped).map (·.1.1) := by
  induction zs generalizing r with
  | nil => simp
  | cons x zs ih =>
    obtain ⟨⟨peer, pids⟩, outcome⟩ := x
    rw [foldl_cons, ih]
    cases outcome <;> simp [record]

theorem failed_foldl (r : Exchange) :
    (zs.foldl record r).failed = r.failed ++ (zs.filter fun x => x.2 = .failed).map (·.1.1) := by
  induction zs generalizing r with
  | nil => simp
  | cons x zs ih =>
    obtain ⟨⟨peer, pids⟩, outcome⟩ := x
    rw [foldl_cons, ih]
    cases outcome <;> simp [record]

theorem reached_foldl (r : Exchange) (pid : Nat) : (zs.foldl record r).reached.count pid = r.reached.count pid +
      ((zs.filter (Handled.reaches pid)).map fun x => x.1.2.count pid).sum := by
  induction zs generalizing r with
  | nil => simp
  | cons x zs ih =>
    obtain ⟨⟨peer, pids⟩, outcome⟩ := x
    rw [foldl_cons, ih]
    cases outcome with
    | skipped => simp [record, Handled.reaches]
    | failed => simp [record, Handled.reaches]
    | completed recent =>
      by_cases hp : pid ∈ recent
      · have hz : (pids.filter fun q => q ∉ recent).count pid = 0 := by
          rw [count_eq_zero]
          intro hm
          simp [hp] at hm
        simp only [record, count_append, hz, filter_cons, Handled.reaches, hp,
          not_true_eq_false, decide_false, Bool.false_eq_true, if_false, Nat.add_zero]
      · have hz : (pids.filter fun q => q ∉ recent).count pid = pids.count pid :=
          count_filter (by simpa using hp)
        simp only [record, count_append, hz, filter_cons, Handled.reaches, hp,
          not_false_eq_true, decide_true, if_true, map_cons, sum_cons]
        omega

end Exchange

theorem eq_of_same_peer (hn : (zs.map (·.1.1)).Nodup) {y : Handled} (hx : x ∈ zs) (hy : y ∈ zs)
    (h : x.1.1 = y.1.1) : x = y := inj_on_of_nodup_map hn hx hy h

theorem completed_of_target (hfailed : (zs.foldl record {}).failed = []) {target : String × List Nat}
    (ht : target ∈ zs.map Prod.fst) (hs : target.1 ∉ (zs.foldl record {}).skipped) :
    ∃ recent, (target, .completed recent) ∈ zs := by
  obtain ⟨⟨_, outcome⟩, hx, rfl⟩ := mem_map.mp ht
  rw [skipped_foldl, nil_append] at hs
  rw [failed_foldl, nil_append] at hfailed
  cases outcome with
  | skipped => exact absurd (mem_map.mpr ⟨_, mem_filter.mpr ⟨hx, by simp⟩, rfl⟩) hs
  | failed =>
    have hin := filter_eq_nil_iff.mp (map_eq_nil_iff.mp hfailed) _ hx
    exact absurd (decide_eq_true rfl) hin
  | completed recent => exact ⟨recent, hx⟩

theorem reached_count (hn : (zs.map (·.1.1)).Nodup) (hcount : ∀ x ∈ zs, x.1.2.count pid = replicas.count x.1.1) :
    (zs.foldl record {}).reached.count pid =
      replicas.countP (· ∈ (zs.filter (Handled.reaches pid)).map (·.1.1)) := by
  have hnodup : ((zs.filter (Handled.reaches pid)).map (·.1.1)).Nodup := hn.sublist (filter_sublist.map _)
  rw [reached_foldl, ← sum_count_eq_countP hnodup, map_map]
  simp only [count_nil, Nat.zero_add]
  congr 1
  apply map_congr_left
  intro x hx
  exact hcount x (mem_filter.mp hx).1

theorem reached_every (hn : (zs.map (·.1.1)).Nodup) (hcount : ∀ x ∈ zs, x.1.2.count pid = replicas.count x.1.1)
    (hall : (zs.foldl record {}).reached.count pid = replicas.length) (hp : peer ∈ replicas) :
    ∃ x ∈ zs, x.1.1 = peer ∧ x.reaches pid = true := by
  rw [reached_count hn hcount, countP_eq_length] at hall
  obtain ⟨x, hx, hxp⟩ := mem_map.mp (of_decide_eq_true (hall peer hp))
  exact ⟨x, (mem_filter.mp hx).1, hxp, (mem_filter.mp hx).2⟩

theorem reached_all (hn : (zs.map (·.1.1)).Nodup) (hcount : ∀ x ∈ zs, x.1.2.count pid = replicas.count x.1.1)
    (hneed : (replicas.filter fun q => q ∉ (zs.foldl record {}).skipped).length ≤
      (zs.foldl record {}).reached.count pid) (hp : peer ∈ replicas) (hs : peer ∉ (zs.foldl record {}).skipped) :
    ∃ x ∈ zs, x.1.1 = peer ∧ x.reaches pid = true := by
  have hsum := reached_count hn hcount
  obtain ⟨done, hdone⟩ : ∃ done, done = (zs.filter (Handled.reaches pid)).map (·.1.1) := ⟨_, rfl⟩
  rw [← hdone] at hsum
  by_contra hno
  have hnot : peer ∉ done := by
    rw [hdone]
    intro hm
    obtain ⟨x, hx, hxp⟩ := mem_map.mp hm
    exact hno ⟨x, (mem_filter.mp hx).1, hxp, (mem_filter.mp hx).2⟩
  have hdisjoint (q : String) (hq : q ∈ done) : q ∉ (zs.foldl record {}).skipped := by
    rw [skipped_foldl, nil_append]
    intro hm
    rw [hdone] at hq
    obtain ⟨x, hx, rfl⟩ := mem_map.mp hq
    obtain ⟨y, hy, hxy⟩ := mem_map.mp hm
    obtain ⟨hyz, hys⟩ := mem_filter.mp hy
    obtain ⟨hxz, hxr⟩ := mem_filter.mp hx
    obtain rfl := eq_of_same_peer hn hyz hxz hxy
    obtain ⟨recent, hr, _⟩ := Handled.reaches_iff.mp hxr
    rw [hr] at hys
    simp at hys
  have hlt : replicas.countP (· ∈ done) <
      replicas.countP (· ∉ (zs.foldl record {}).skipped) := by
    refine countP_lt_countP ?_ hp (by simpa using hs) (by simpa using hnot)
    intro q _ hq
    exact decide_eq_true (hdisjoint q (of_decide_eq_true hq))
  rw [hsum, ← countP_eq_length_filter] at hneed
  exact absurd hlt (not_lt.mpr hneed)

section Targets

variable {view : ReplicaView} {pids : List Nat} {peers : List (String × List Nat)} {x : String × List Nat}
  (h : targets view pids = .ok peers)

include h

theorem targets_cases : peers = gather (pids.flatMap fun pid => (view.replicasOf pid).map fun peer => (peer, pid)) ∧
      ∀ pid ∈ pids, pid < view.replicas.length := by
  simp only [targets, bind_eq_ok, pure_eq_ok] at h
  obtain ⟨pairs, hpairs, rfl⟩ := h
  have hrange (pid : Nat) (hp : pid ∈ pids) : pid < view.replicas.length := by
    obtain ⟨b, _, hb⟩ := exists_of_mem_mapM hpairs hp
    by_contra hge
    rw [getElem?_eq_none (not_lt.mp hge)] at hb
    cases hb
  refine ⟨?_, hrange⟩
  rw [mapM_ok_eq_map (g := fun pid => (view.replicasOf pid).map fun peer => (peer, pid)) ?_ hpairs, flatMap_def]
  intro pid _ b hb
  cases hr : view.replicas[pid]? with
  | none =>
    rw [hr] at hb
    cases hb
  | some nodes =>
    rw [hr] at hb
    cases hb
    rw [replicasOf, getD_eq_getElem?_getD, hr, Option.getD_some]

theorem count_target (hn : pids.Nodup) (hp : pid ∈ pids) (hx : x ∈ peers) :
    x.2.count pid = (view.replicasOf pid).count x.1 := by
  have heq := (targets_cases h).1
  rw [heq] at hx
  rw [gather_values hx]
  clear hx h heq
  induction pids with
  | nil => cases hp
  | cons a pids ih =>
    obtain ⟨ha, hpids⟩ := nodup_cons.mp hn
    rw [flatMap_cons, filter_append, map_append, count_append, count_tagged]
    rcases mem_cons.mp hp with rfl | hmem
    · rw [if_pos rfl, Nat.add_eq_left, count_eq_zero]
      intro hm
      obtain ⟨e, he, rfl⟩ := mem_map.mp hm
      obtain ⟨b, hb, hbe⟩ := mem_flatMap.mp (mem_filter.mp he).1
      obtain ⟨peer, _, rfl⟩ := mem_map.mp hbe
      exact ha hb
    · rw [if_neg (by rintro rfl; exact ha hmem), Nat.zero_add]
      exact ih hpids hmem

theorem target_replica (hx : x ∈ peers) : ∃ pid ∈ pids, x.1 ∈ view.replicasOf pid := by
  obtain ⟨rfl, _⟩ := targets_cases h
  have hkey := of_mem_keys_gather (mem_map.mpr ⟨x, hx, rfl⟩)
  obtain ⟨e, he, heq⟩ := mem_map.mp hkey
  obtain ⟨pid, hpid, hpeer⟩ := mem_flatMap.mp he
  obtain ⟨peer, hrep, rfl⟩ := mem_map.mp hpeer
  exact ⟨pid, hpid, heq ▸ hrep⟩

theorem nodup_targets : (peers.map Prod.fst).Nodup := by
  obtain ⟨rfl, _⟩ := targets_cases h
  exact nodup_gather _

theorem tally_targets (hn : pids.Nodup) (hp : pid ∈ pids) (hperm : (zs.map Prod.fst).Perm peers) :
    (zs.map (·.1.1)).Nodup ∧ ∀ x ∈ zs, x.1.2.count pid = (view.replicasOf pid).count x.1.1 := by
  refine ⟨?_, fun x hx => count_target h hn hp (hperm.mem_iff.mp (mem_map.mpr ⟨x, hx, rfl⟩))⟩
  have hmap := (hperm.map Prod.fst).nodup_iff.mpr (nodup_targets h)
  rwa [map_map] at hmap

end Targets

section Sources

variable {view : ReplicaView} {pid : Nat} {primaries : List (String × List Nat)} {down : List String}
  {p : String}

theorem isReplica_lt {node : String} (h : view.isReplica pid node = true) : pid < view.replicas.length := by
  by_contra hge
  rw [isReplica, decide_eq_true_iff, replicasOf, getD_eq_getElem?_getD, getElem?_eq_none (not_lt.mp hge)] at h
  cases h

theorem mem_fallbackSources (hn : (primaries.map Prod.fst).Nodup) {q : String} {pids : List Nat}
    (hp : (p, pids) ∈ primaries) (hpid : pid ∈ pids) (hdown : p ∈ down) (hq : q ∈ view.sourcesOf pid)
    (hne : q ≠ p) (hself : q ≠ view.nodeId) :
    ∃ pids, (q, pids) ∈ fallbackSources view primaries down ∧ pid ∈ pids := by
  apply exists_mem_gather
  apply mem_flatMap.mpr
  refine ⟨p, hdown, mem_flatMap.mpr ⟨pid, ?_, ?_⟩⟩
  · rw [lookup_of_mem hn hp]
    exact hpid
  · apply mem_map.mpr
    refine ⟨q, mem_filter.mpr ⟨hq, ?_⟩, rfl⟩
    exact decide_eq_true ⟨hne, hself⟩

theorem fallbackSources_elsewhere : ∀ x ∈ fallbackSources view primaries down, x.1 ≠ view.nodeId := by
  intro x hx
  have hkey := of_mem_keys_gather (mem_map.mpr ⟨x, hx, rfl⟩)
  obtain ⟨e, he, heq⟩ := mem_map.mp hkey
  obtain ⟨p, _, hpids⟩ := mem_flatMap.mp he
  obtain ⟨pid, _, hpeers⟩ := mem_flatMap.mp hpids
  obtain ⟨q, hq, rfl⟩ := mem_map.mp hpeers
  rw [← heq]
  exact (of_decide_eq_true (mem_filter.mp hq).2).2

variable [Blake2b]

theorem primarySource_candidate (h : view.primarySource pid = some p) :
    p ∈ view.sourcesOf pid ∧ p ≠ view.nodeId := by
  have hcandidate (q : String) (hq : q ∈ (view.sourcesOf pid).filter fun n => n ≠ view.nodeId) :
      q ∈ view.sourcesOf pid ∧ q ≠ view.nodeId := by
    obtain ⟨hs, hne⟩ := mem_filter.mp hq
    exact ⟨hs, of_decide_eq_true hne⟩
  unfold primarySource at h
  dsimp only at h
  split at h
  · cases h
  · split at h
    · have hmem := mem_of_getElem? h
      rw [mem_insertionSort] at hmem
      exact hcandidate p (mem_filter.mp hmem).1
    · exact hcandidate p (mem_of_getElem? h)

theorem joinSources_elsewhere : ∀ x ∈ Service.joinSources view, x.1 ≠ view.nodeId := by
  intro x hx
  have hkey := of_mem_keys_gather (mem_map.mpr ⟨x, hx, rfl⟩)
  obtain ⟨e, he, heq⟩ := mem_map.mp hkey
  obtain ⟨pid, _, hpid⟩ := mem_filterMap.mp he
  split at hpid
  · obtain ⟨p, hp, rfl⟩ := Option.map_eq_some_iff.mp hpid
    rw [← heq]
    exact (primarySource_candidate hp).2
  · cases hpid

theorem mem_joinSources (hrep : view.isReplica pid view.nodeId = true) (hp : view.primarySource pid = some p) :
    ∃ pids, (p, pids) ∈ Service.joinSources view ∧ pid ∈ pids := by
  apply exists_mem_gather
  apply mem_filterMap.mpr
  refine ⟨pid, mem_range.mpr (isReplica_lt hrep), ?_⟩
  rw [if_pos hrep, hp]
  rfl

end Sources

end Tourillon
