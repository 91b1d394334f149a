import Tourillon.Store.RepairScan

namespace Tourillon

open Exceptional List RepairService RepairTarget Scan

variable {fanout : List RepairTarget} {answers : List (String × VersionLookup)} {plan : RepairPlan}
  {arrivals : List (List Nat)} {request : RepairRequest} {n : String}

theorem mem_collectRepairReads {answer : LookupAnswer} {a : String × VersionLookup}
    (h : a ∈ (collectRepairReads fanout answer arrivals).answers) :
    ∃ i, a.1 = ownerName fanout i ∧ answer i = .ok a.2 := by
  have hcollect (done : List Nat) (s : RepairReads)
      (hs : ∀ b ∈ s.answers, ∃ i, b.1 = ownerName fanout i ∧ answer i = .ok b.2) :
      ∀ b ∈ (RepairReads.collect fanout answer done s).answers,
        ∃ i, b.1 = ownerName fanout i ∧ answer i = .ok b.2 := by
    unfold RepairReads.collect
    induction done generalizing s with
    | nil => exact hs
    | cons i done ih =>
      rw [foldl_cons]
      apply ih
      cases hi : answer i with
      | error e => exact hs
      | ok found =>
        intro b hb
        rcases mem_append.mp hb with hold | hnew
        · exact hs b hold
        · rw [mem_singleton.mp hnew]
          exact ⟨i, rfl, hi⟩
  exact Gather.gather_inv (I := fun _ s => ∀ b ∈ s.answers, ∃ i, b.1 = ownerName fanout i ∧
    answer i = .ok b.2) (fun _ s done hs _ _ => hcollect done s hs) arrivals
      (fun _ hb => absurd hb not_mem_nil) a h

theorem ownerName_of_getElem? {i : Nat} {e : RepairTarget} (h : fanout[i]? = some e) :
    ownerName fanout i = e.owner := by
  rw [ownerName, getD_eq_getElem?_getD, getElem?_map, h]
  rfl

theorem mem_repairTarget {e : Preference} {target : RepairTarget} (h : repairTarget e = some target) :
    e.handoff = some target.target ∨ e.handoff = none ∧ target.target = e.nodeId := by
  unfold repairTarget at h
  split at h
  · rename_i handoff hh
    cases h
    exact .inl hh
  · rename_i hh
    split at h
    · cases h
      exact .inr ⟨hh, rfl⟩
    · cases h

theorem WellPlaced.fanout_nodup {preferences : List Preference} (h : WellPlaced preferences) :
    ((repairFanout preferences).map target).Nodup :=
  h.destinations_nodup fun _ _ => mem_repairTarget

theorem mem_directOwners {owner : String} (h : owner ∈ directOwners fanout) :
    ∃ e ∈ fanout, e.owner = owner ∧ e.target = owner := by
  obtain ⟨e, he, rfl⟩ := mem_map.mp h
  obtain ⟨hin, hsame⟩ := mem_filter.mp he
  exact ⟨e, hin, rfl, (of_decide_eq_true hsame).symm⟩

structure RepairPlanned (fanout : List RepairTarget) (answers : List (String × VersionLookup))
    (plan : RepairPlan) : Prop where
  source : ∃ a ∈ answers, a.2.exact = some plan.source ∧ plan.source.owned = true
  holders : plan.holders = repairHolders answers fanout
  missing : plan.missing =
    (fanout.filter fun e => e.owner ∉ plan.holders).map fun e => (e.target, e.hinted)

theorem repairPlanned_of_planRepair {key : Key} {reads : RepairReads}
    (h : planRepair request key fanout reads = .ok plan) : RepairPlanned fanout reads.answers plan := by
  unfold planRepair at h
  split at h
  · cases hcheck : checkOutdated request key fanout reads.answers 0 with
    | error e =>
      rw [hcheck] at h
      cases h
    | ok _ =>
      rw [hcheck] at h
      cases h
  · rename_i source hsource
    cases h
    refine ⟨?_, rfl, rfl⟩
    have hmem := mem_of_find?_eq_some hsource
    rw [reduceOption_mem_iff] at hmem
    obtain ⟨a, ha, hexact⟩ := mem_map.mp hmem
    exact ⟨a, ha, hexact, find?_some hsource⟩

section

variable (h : RepairPlanned fanout answers plan)

include h

theorem RepairPlanned.missing_nodup (hdistinct : (fanout.map target).Nodup) :
    (plan.missing.map Prod.fst).Nodup := by
  rw [h.missing, map_map]
  exact hdistinct.sublist (filter_sublist.map _)

theorem RepairPlanned.apart (hdistinct : (fanout.map target).Nodup) (hn : n ∈ plan.holders) :
    n ∉ plan.missing.map Prod.fst := by
  intro hmissing
  rw [h.missing, map_map] at hmissing
  obtain ⟨e, he, hname⟩ := mem_map.mp hmissing
  obtain ⟨hin, hnot⟩ := mem_filter.mp he
  have hheld := hn
  rw [h.holders, repairHolders, mem_dedup] at hheld
  obtain ⟨a, ha, rfl⟩ := mem_map.mp hheld
  obtain ⟨_, hcond⟩ := mem_filter.mp ha
  rw [Bool.and_eq_true, decide_eq_true_iff] at hcond
  obtain ⟨e', hin', howner, htarget⟩ := mem_directOwners hcond.1
  have hsame : e = e' := inj_on_of_nodup_map hdistinct hin hin' (hname.trans htarget.symm)
  subst hsame
  rw [howner] at hnot
  exact of_decide_eq_true hnot hn

theorem RepairPlanned.holder (hn : n ∈ plan.holders) : (∃ e ∈ fanout, e.owner = n ∧ e.target = n) ∧
      ∃ found r, (n, found) ∈ answers ∧ found.exact = some r ∧ r.owned = true := by
  rw [h.holders, repairHolders, mem_dedup] at hn
  obtain ⟨⟨owner, found⟩, ha, rfl⟩ := mem_map.mp hn
  obtain ⟨hin, hcond⟩ := mem_filter.mp ha
  rw [Bool.and_eq_true, decide_eq_true_iff, Option.any_eq_true] at hcond
  obtain ⟨r, hr, howned⟩ := hcond.2
  exact ⟨mem_directOwners hcond.1, found, r, hin, hr, howned⟩

end

theorem finishRepair_ok {answer : WriteAnswer} {result : RepairResult}
    (h : finishRepair request plan answer arrivals = .ok result) :
    ∃ done : List Nat, done.Nodup ∧ (∀ i ∈ done, i < plan.missing.length) ∧ result.replicas = plan.holders.length +
        (done.filterMap fun i => (answer i).toOption).length ∧ request.quorumWrite.toNat ≤ result.replicas := by
  have hquorum {durable : Nat} {errors : List ReplicaError} {u : Unit}
      (he : ensureRepairQuorum durable request errors = .ok u) :
      request.quorumWrite.toNat ≤ durable := by
    unfold ensureRepairQuorum ensureQuorum at he
    split at he
    · cases he
    · exact not_lt.mp ‹_›
  unfold finishRepair at h
  split at h
  · simp only [bind_eq_ok, pure_eq_ok] at h
    obtain ⟨_, hensure, rfl⟩ := h
    exact ⟨[], nodup_nil, forall_mem_nil _, rfl, hquorum hensure⟩
  · simp only [bind_eq_ok, pure_eq_ok] at h
    obtain ⟨_, hensure, rfl⟩ := h
    obtain ⟨_, done, hnodup, hsettled, happlied⟩ :=
      gathered_gather answer plan.missing.length (fun _ => false) arrivals
    refine ⟨done, hnodup, fun i hi => (hsettled i hi).2, ?_, hquorum hensure⟩
    rw [← happlied]
    rfl

def Fleet.StoresOnly (key : Key) (f f' : Fleet) : Prop := ∀ n group, ∀ k ∈ (f'.storage n group).held,
  k ∈ (f.storage n group).held ∨ k = key

section Writes

variable [Blake2b] {d : Deployment} {o : Order} {f : Fleet} {g : GroupStorage}

theorem storesOnly_withStorage (h : Consistent f) {node : String} {group : Nat}
    {obligations : List ObligationKey} (hadded : Added node [o.record] obligations (f.storage node group) g) :
    f.StoresOnly o.record.key (f.withStorage node group g) := by
  intro n i k hk
  rw [Fleet.storage_withStorage] at hk
  split at hk
  · rename_i hsame
    rw [hadded.held (h.clean node group).toHolding, Finset.mem_union] at hk
    rw [hsame.1, hsame.2]
    exact hk.imp_right fun hnew => by simpa using hnew
  · exact .inl hk

theorem transaction_only (h : Consistent f) (hr : o.record ∈ f.issued) (t : FanTask) (faults : Faults)
    (hrun : t.transaction faults o.record (f.storage t.target (o.group d)) = (.ok (), g)) :
    f.StoresOnly o.record.key (f.withStorage t.target (o.group d) g) := by
  unfold FanTask.transaction at hrun
  cases hintent : t.intent with
  | some owner =>
    rw [hintent] at hrun
    dsimp only at hrun
    rw [Prod.mk.injEq] at hrun
    rcases (oblige_spec faults t.target [owner] (h.clean t.target (o.group d))
        (h.storable _ hr)).2 with ⟨e, herror⟩ | ⟨obligations, _, _, hadded⟩
    · rw [herror] at hrun
      cases hrun.1
    · rw [hrun.2] at hadded
      exact storesOnly_withStorage h hadded
  | none =>
    rw [hintent] at hrun
    dsimp only at hrun
    rw [Prod.mk.injEq] at hrun
    rcases (localWrite_spec faults t.target (h.clean t.target (o.group d))
        (h.storable _ hr)).2 with ⟨e, herror⟩ | ⟨_, hadded⟩
    · rw [herror] at hrun
      cases hrun.1
    · rw [hrun.2] at hadded
      exact storesOnly_withStorage h hadded

theorem serve_only (h : Consistent f) (hr : o.record ∈ f.issued) (t : FanTask) (faults : Faults) :
    f.StoresOnly o.record.key (t.serve d o f faults).2 := by
  unfold FanTask.serve
  rw [transmit_ok]
  dsimp only
  cases hcase : t.transaction faults o.record (f.storage t.target (o.group d)) with
  | mk result g =>
    cases result with
    | error e => exact fun _ _ _ => .inl
    | ok _ => exact transaction_only h hr t faults hcase

theorem step_only (h : Consistent f) (hr : o.record ∈ f.issued) (t : FanTask) (a : TaskAction) :
    f.StoresOnly o.record.key (t.step d o f a).2 := by
  have hidle : f.StoresOnly o.record.key f := fun _ _ _ => .inl
  cases a with
  | serve faults =>
    unfold FanTask.step
    dsimp only
    split
    · exact serve_only h hr t faults
    · split
      · exact hidle
      · exact serve_only h hr t faults
  | answer =>
    unfold FanTask.step
    dsimp only
    split
    · split
      · exact hidle
      · exact hidle
    · exact hidle
  | fail e =>
    unfold FanTask.step
    dsimp only
    split
    · split
      · exact hidle
      · exact hidle
    · split
      · exact hidle
      · exact hidle
    · exact hidle
  | fallback faults =>
    unfold FanTask.step
    dsimp only
    split
    · rcases (oblige_spec faults o.node [t.target] (h.clean o.node (o.group d))
          (h.storable _ hr)).2 with ⟨e, herror⟩ | ⟨_, _, _, hadded⟩
      · rw [herror]
        intro n i k hk
        rw [Fleet.storage_withStorage] at hk
        split at hk
        · rename_i hsame
          rw [hsame.1, hsame.2]
          exact .inl hk
        · exact .inl hk
      · exact storesOnly_withStorage h hadded
    · exact hidle

theorem Coordinating.stores_only {s : Fan} (h : Coordinating o s) (i : Nat) (a : TaskAction) :
    s.fleet.StoresOnly o.record.key (s.step d o (.task i a)).fleet := by
  unfold Fan.step
  dsimp only
  split
  · rename_i t _
    exact step_only h.consistent h.issued t a
  · exact fun _ _ _ => .inl

end Writes

section Calls

variable {service : RepairService} {t : Topology} {alive : String → Bool} {f : Fleet} {request : RepairRequest}
  {key : Key} {fanout : List RepairTarget} {target : String} {r : Record}

theorem WellPlaced.owners_nodup {preferences : List Preference} (h : WellPlaced preferences) :
    ((repairFanout preferences).map owner).Nodup := by
  have howner {e : Preference} {target : RepairTarget} (he : repairTarget e = some target) :
      target.owner = e.nodeId := by
    unfold repairTarget at he
    split at he
    · cases he
      rfl
    · split at he
      · cases he
        rfl
      · cases he
  have hnodes := pairwise_map.mp h.owners
  rw [List.Nodup, pairwise_map, repairFanout, pairwise_filterMap]
  refine hnodes.imp ?_
  intro e e' hne target htarget target' htarget'
  rw [howner htarget, howner htarget']
  exact hne

structure Distinct (fanout : List RepairTarget) : Prop where
  owners : (fanout.map RepairTarget.owner).Nodup
  targets : (fanout.map RepairTarget.target).Nodup

theorem beginRepair_ok (h : service.beginRepair t alive f request = .ok (key, fanout)) :
    decodeToken request.token = .ok key ∧ Distinct fanout ∧ 1 ≤ request.quorumWrite := by
  have hmap {ε α : Type} {x : Except ε α} {g : ε → RepairError} {a : α}
      (hx : x.mapError g = .ok a) : x = .ok a := by
    cases x with
    | error e => cases hx
    | ok b =>
      cases hx
      rfl
  simp only [beginRepair, repairKey, bind_eq_ok] at h
  obtain ⟨_, hquorum, k, ⟨decoded, hdecode, encoded, _, hkey⟩, list, hlist, h⟩ := h
  have hsame : k = decoded := by
    split at hkey
    · cases hkey
    · split at hkey
      · cases hkey
      · exact (Except.ok.inj hkey).symm
  subst hsame
  split at h
  · cases h
  · cases h
    have hplaced := SimplePlacementStrategy.wellPlaced (hmap hlist)
    refine ⟨hmap hdecode, ⟨hplaced.owners_nodup, hplaced.fanout_nodup⟩, ?_⟩
    have hvalid := hmap hquorum
    unfold validateQuorum at hvalid
    split at hvalid
    · rename_i hbounds
      exact hbounds.1
    · cases hvalid

theorem recordAt_of_readAt {d : Deployment} {found : VersionLookup} (h : ReadAt d key target found f)
    (hr : found.exact = some r) : f.recordAt d target key = some r := by
  rw [Fleet.recordAt, h, hr]
  rfl

variable [Blake2b] {schedule : RepairSchedule} {plan : RepairPlan}

theorem answer_read {a : String × VersionLookup}
    (h : a ∈ (collectRepairReads fanout (service.scanned f key fanout schedule.lookups).outcome
      schedule.answered).answers) :
    ∃ e ∈ fanout, a.1 = e.owner ∧ (start f fanout).Sometime service.deployment service.node key
      schedule.lookups (ReadAt service.deployment key e.target a.2) := by
  obtain ⟨i, hname, hanswer⟩ := mem_collectRepairReads h
  obtain ⟨e, he, hread⟩ := outcome_read hanswer
  exact ⟨e, mem_of_getElem? he, hname.trans (ownerName_of_getElem? he), hread⟩

theorem source_found (h : service.plan f request key fanout schedule = .ok plan) :
    plan.source.owned = true ∧ ∃ e ∈ fanout, (start f fanout).Sometime service.deployment
      service.node key schedule.lookups fun f' =>
        f'.recordAt service.deployment e.target key = some plan.source := by
  obtain ⟨a, ha, hexact, howned⟩ := (repairPlanned_of_planRepair h).source
  obtain ⟨e, he, _, pre, hpre, hread⟩ := answer_read ha
  exact ⟨howned, e, he, pre, hpre, recordAt_of_readAt hread hexact⟩

theorem Consistent.scanned (hc : Consistent f) (service : RepairService) (key : Key)
    (fanout : List RepairTarget) (acts : List ScanAction) :
    Consistent (service.scanned f key fanout acts).fleet := by
  rw [RepairService.scanned, fleet_run]
  exact hc.run _

theorem scanned_issued (hc : Consistent f) {pre acts : List ScanAction} (h : pre <+: acts) :
    (service.scanned f key fanout pre).fleet.issued ⊆ (service.scanned f key fanout acts).fleet.issued := by
  obtain ⟨rest, rfl⟩ := h
  have hpre := hc.scanned service key fanout pre
  rw [scanned, scanned, run_append, fleet_run _ rest]
  exact (hpre.issued_prefix _).subset

theorem found_issued (hc : Consistent f)
    (h : (start f fanout).Sometime service.deployment service.node key schedule.lookups fun f' =>
      f'.recordAt service.deployment target key = some r) :
    r.key = key ∧ r ∈ (service.scanned f key fanout schedule.lookups).fleet.issued := by
  obtain ⟨pre, hpre, hr⟩ := h
  obtain ⟨hin, hkey, _⟩ := (hc.scanned service key fanout pre).recordAt_iff.mp hr
  exact ⟨hkey, scanned_issued hc hpre hin⟩

def RepairService.fan (service : RepairService) (f : Fleet) (key : Key) (fanout : List RepairTarget)
    (schedule : RepairSchedule) (plan : RepairPlan) : Fan :=
  ⟨(service.scanned f key fanout schedule.lookups).fleet, plan.missing.map FanTask.create⟩

theorem plan_coordinating (hc : Consistent f) (h : service.plan f request key fanout schedule = .ok plan) :
    plan.source.key = key ∧ Coordinating (service.order plan) (service.fan f key fanout schedule plan) := by
  obtain ⟨_, e, _, hfound⟩ := source_found h
  obtain ⟨hkey, hissued⟩ := found_issued hc hfound
  exact ⟨hkey, hc.scanned service key fanout _, hissued⟩

section

variable (hc : Consistent f) (hdistinct : Distinct fanout)
  (h : service.plan f request key fanout schedule = .ok plan)
  (hstamps : (service.written f key fanout schedule plan schedule.writes).fleet.StampedOnce)

include hc hdistinct h hstamps

theorem holder_found {n : String} (hn : n ∈ plan.holders) :
    (start f fanout).Sometime service.deployment service.node key schedule.lookups fun f' =>
      f'.recordAt service.deployment n key = some plan.source := by
  obtain ⟨⟨e, he, howner, htarget⟩, found, r, hanswer, hr, _⟩ := (repairPlanned_of_planRepair h).holder hn
  obtain ⟨e', he', hname, pre, hpre, hread⟩ := answer_read hanswer
  have hsame : e = e' := inj_on_of_nodup_map hdistinct.owners he he' (howner.trans hname)
  subst hsame
  rw [htarget] at hread
  have hseen := recordAt_of_readAt hread hr
  obtain ⟨hkey, hissued⟩ := found_issued hc ⟨pre, hpre, hseen⟩
  obtain ⟨hsource, hcoord⟩ := plan_coordinating hc h
  have hlater := (hcoord.issued_run (d := service.deployment) schedule.writes).subset
  have heq : r = plan.source :=
    hstamps.unique (hlater hissued) (hlater hcoord.issued) (hkey.trans hsource.symm)
  exact ⟨pre, hpre, heq ▸ hseen⟩

theorem copies_found {result : RepairResult} (hreturn : finishRepair request plan
      (service.written f key fanout schedule plan schedule.writes).outcome schedule.acknowledged =
        .ok result) : ∃ copies : Finset String, request.quorumWrite.toNat ≤ copies.card ∧
      result.replicas ≤ copies.card ∧ ∀ n ∈ copies,
        ((start f fanout).Sometime service.deployment service.node key schedule.lookups fun f' =>
          f'.recordAt service.deployment n key = some plan.source) ∨
        (service.fan f key fanout schedule plan).Sometime service.deployment (service.order plan)
          schedule.writes fun f' => f'.recordAt service.deployment n key = some plan.source := by
  have hplanned := repairPlanned_of_planRepair h
  obtain ⟨hkey, hcoord⟩ := plan_coordinating hc h
  obtain ⟨done, hnodup, hlt, hreplicas, hquorum⟩ := finishRepair_ok hreturn
  obtain ⟨names, hnames, hcount, hmem⟩ := answered_names
    (service.written f key fanout schedule plan schedule.writes).outcome
    (hplanned.missing_nodup hdistinct.targets) hnodup hlt
  have hwritten (n : String) (hn : n ∈ names) : n ∈ plan.missing.map Prod.fst ∧
      (service.fan f key fanout schedule plan).Sometime service.deployment (service.order plan)
        schedule.writes fun f' => f'.recordAt service.deployment n key = some plan.source := by
    obtain ⟨i, r, _, hname, hr⟩ := hmem n hn
    obtain ⟨target, htarget, _, hbacked⟩ := hcoord.task rfl hr
    have hfst : target.1 = n := (targetName_of_getElem? htarget).symm.trans hname
    refine ⟨mem_map.mpr ⟨target, mem_of_getElem? htarget, hfst⟩, ?_⟩
    have hstored := hcoord.recordAt hstamps (n := n) (hbacked.mono (prefix_refl _) fun f' hb =>
      hfst ▸ hb.stored)
    rw [show (service.order plan).record.key = key from hkey] at hstored
    exact hstored
  have hall : (plan.holders ++ names).Nodup := by
    rw [nodup_append]
    refine ⟨?_, hnames, ?_⟩
    · rw [hplanned.holders]
      exact nodup_dedup _
    · intro n hn m hm heq
      exact hplanned.apart hdistinct.targets hn (heq ▸ (hwritten m hm).1)
  have hcard : (plan.holders ++ names).toFinset.card = result.replicas := by
    rw [toFinset_card_of_nodup hall, length_append, hcount, hreplicas]
  refine ⟨(plan.holders ++ names).toFinset, hcard ▸ hquorum, hcard.ge, ?_⟩
  intro n hn
  rcases mem_append.mp (mem_toFinset.mp hn) with hold | hnew
  · exact .inl (holder_found hc hdistinct h hstamps hold)
  · exact .inr (hwritten n hnew).2

end

theorem repair_exact_and_honest (hf : f.Initial) (before : List FleetAction)
    (hbegin : service.beginRepair t alive (f.run service.deployment before) request =
      .ok (key, fanout)) (schedule : RepairSchedule) : decodeToken request.token = .ok key ∧ (∀ acts i a,
      (service.scanned (f.run service.deployment before) key fanout (acts ++ [.lookup i a])).fleet =
        (service.scanned (f.run service.deployment before) key fanout acts).fleet) ∧
    (∀ plan, service.plan (f.run service.deployment before) request key fanout schedule = .ok plan → ∀ acts i a,
        (service.written (f.run service.deployment before) key fanout schedule plan acts).fleet.StoresOnly
          key (service.written (f.run service.deployment before) key fanout schedule plan
            (acts ++ [.task i a])).fleet) ∧ ((∀ e ∈ fanout, ∀ acts, acts <+: schedule.lookups → ∀ r,
      (service.scanned (f.run service.deployment before) key fanout acts).fleet.recordAt
        service.deployment e.target key = some r → r.owned = false) →
      ∀ plan, service.plan (f.run service.deployment before) request key fanout schedule ≠ .ok plan) ∧
    (∀ result, service.runRepair (f.run service.deployment before) request key fanout schedule =
        .ok result → ∃ plan, service.plan (f.run service.deployment before) request key fanout schedule = .ok plan ∧
        (∃ e ∈ fanout, ∃ acts, acts <+: schedule.lookups ∧
          (service.scanned (f.run service.deployment before) key fanout acts).fleet.recordAt
            service.deployment e.target key = some plan.source) ∧
        ((service.written (f.run service.deployment before) key fanout schedule plan
            schedule.writes).fleet.StampedOnce → ∃ copies : Finset String, request.quorumWrite ≤ copies.card ∧
            result.replicas ≤ copies.card ∧ ∀ n ∈ copies, (∃ acts, acts <+: schedule.lookups ∧
                (service.scanned (f.run service.deployment before) key fanout acts).fleet.recordAt
                  service.deployment n key = some plan.source) ∨ ∃ acts, acts <+: schedule.writes ∧
                (service.written (f.run service.deployment before) key fanout schedule plan
                  acts).fleet.recordAt service.deployment n key = some plan.source)) := by
  have hc : Consistent (f.run service.deployment before) := hf.consistent.run before
  obtain ⟨hdecode, hdistinct, _⟩ := beginRepair_ok hbegin
  refine ⟨hdecode, ?_, ?_, ?_, ?_⟩
  · intro acts i a
    rw [scanned, run_append]
    exact fleet_lookup _ i a
  · intro plan hplan acts i a
    obtain ⟨hkey, hcoord⟩ := plan_coordinating hc hplan
    have honly := (hcoord.run (d := service.deployment) acts).stores_only (d := service.deployment) i a
    rw [show (service.order plan).record.key = key from hkey] at honly
    unfold written
    rw [Fan.run_append]
    exact honly
  · intro hnone plan hplan
    obtain ⟨howned, e, he, acts, hacts, hr⟩ := source_found hplan
    have hnot := hnone e he acts hacts plan.source hr
    rw [howned] at hnot
    cases hnot
  · intro result hresult
    simp only [runRepair, bind_eq_ok] at hresult
    obtain ⟨plan, hplan, hreturn⟩ := hresult
    obtain ⟨_, e, he, acts, hacts, hr⟩ := source_found hplan
    refine ⟨plan, hplan, ⟨e, he, acts, hacts, hr⟩, ?_⟩
    intro hstamps
    obtain ⟨copies, hquorum, hreplicas, hcopies⟩ := copies_found hc hdistinct hplan hstamps hreturn
    exact ⟨copies, by omega, hreplicas, hcopies⟩

end Calls

namespace Sample

def repairer : RepairService := ⟨"a", strategy, deployment⟩

def lonely : List FleetAction := [.wall "a" 9, .stamp "a" ⟨[1], [2]⟩ [3] 0 false 2, .write "a" 0 calm]

def handle : RepairRequest := ⟨"AAAAAAECAQEAAAAAAAAACQAAAAFh", 2⟩

def bothAsked : List RepairTarget := [⟨"b", "b", none⟩, ⟨"a", "a", none⟩]

def askThenCopy : RepairSchedule where
  lookups := [.lookup 0 .serve, .lookup 1 .serve, .lookup 0 .answer]
  answered := [[0, 1]]
  writes := [.task 0 (.serve calm), .task 0 .answer]
  acknowledged := [[0]]

theorem handle_begun : repairer.beginRepair (membersOf second other) (fun _ => true)
    (sites.run deployment lonely) handle = .ok (firstKey, bothAsked) := by
  decide +kernel

theorem lonely_repaired : repairer.runRepair (sites.run deployment lonely) handle firstKey bothAsked askThenCopy =
      .ok ⟨.repaired, 2, handle.token⟩ := by
  decide +kernel

def copyToOther : RepairPlan := ⟨putRecord, ["a"], [("b", none)], []⟩

theorem lonely_planned : repairer.plan (sites.run deployment lonely) handle firstKey bothAsked askThenCopy =
      .ok copyToOther := by
  decide +kernel

theorem lonely_copied : ∃ copies : Finset String, 2 ≤ copies.card ∧ ∀ n ∈ copies,
    (∃ acts, acts <+: askThenCopy.lookups ∧
      (repairer.scanned (sites.run deployment lonely) firstKey bothAsked acts).fleet.recordAt
        deployment n firstKey = some putRecord) ∨ ∃ acts, acts <+: askThenCopy.writes ∧
      (repairer.written (sites.run deployment lonely) firstKey bothAsked askThenCopy copyToOther
        acts).fleet.recordAt deployment n firstKey = some putRecord := by
  have hstamps : (repairer.written (sites.run deployment lonely) firstKey bothAsked askThenCopy
      copyToOther askThenCopy.writes).fleet.StampedOnce := by
    decide +kernel
  have hhonest := repair_exact_and_honest sites_initial lonely handle_begun askThenCopy
  obtain ⟨plan, hplan, _, hcopies⟩ := hhonest.2.2.2.2 _ lonely_repaired
  cases hplan.symm.trans lonely_planned
  obtain ⟨copies, _, hreplicas, hfound⟩ := hcopies hstamps
  exact ⟨copies, hreplicas, hfound⟩

end Sample

end Tourillon
