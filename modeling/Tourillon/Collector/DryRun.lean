import Tourillon.Collector.ExactCollection
import Tourillon.Library.Lockstep
import Tourillon.Storage.Lagging

namespace Tourillon

open Endian Prog GarbageCollector GroupSession List

variable {contents : Nat → GroupStorage} {r d : GcState}

structure Rehearsed (contents : Nat → GroupStorage) (r d : GcState) : Prop where
  report : r.status = { d.status with dryRun := false }
  dry : d.status.dryRun = true
  unchanged : d.groups = contents
  idle : r.hot = []

theorem Rehearsed.finish (h : Rehearsed contents r d) (outcome : Except GcError Unit) :
    (finishPass outcome r).status = { (finishPass outcome d).status with dryRun := false } := by
  cases outcome with
  | ok u => simp only [finishPass, h.report]
  | error e => simp only [finishPass, h.report]

structure Pending (contents : Nat → GroupStorage) (groups : List Nat) (r d : GcState) : Prop
    extends Rehearsed contents r d where
  ahead : ∀ group ∈ groups, r.groups group = contents group

theorem Pending.totals {groups : List Nat} (h : Pending contents groups r d) (keys : List Key) (count size : Nat) :
    Pending contents groups (scanTotals keys count size r) (scanTotals keys count size d) where
  report := by simp only [scanTotals, h.report]
  dry := h.dry
  unchanged := h.unchanged
  idle := h.idle
  ahead := h.ahead

def listed (g : GroupStorage) (after : Option Bytes) : Nat :=
  (g.tags.entries.filter fun e => decide (∀ b ∈ after, b < e.1)).length

theorem TagPage.listed_lt {g : GroupStorage} {after : Option Bytes} {ks : List Key}
    (h : TagPage g after ks) {last : Key} (hlast : last ∈ ks) :
    listed g (some (last.encode .tags)) < listed g after := by
  have hin : last.encode .tags ∈ ks.map (Key.encode .tags) := mem_map_of_mem hlast
  rw [← h.keys] at hin
  obtain ⟨e, he, hkey⟩ := mem_map.mp hin
  obtain ⟨hentry, hafter⟩ := mem_filter.mp he
  rw [listed, listed, ← countP_eq_length_filter, ← countP_eq_length_filter]
  refine Sequence.countP_lt_countP (a := e) ?_ hentry hafter ?_
  · intro e' _ hlater
    refine decide_eq_true fun b hb => ?_
    exact (h.later hlast b hb).trans (of_decide_eq_true hlater _ rfl)
  · rw [decide_eq_false_iff_not]
    intro hlater
    exact absurd (hlater _ rfl) (by rw [hkey]; exact lt_irrefl _)

theorem settle_quiet {c : GarbageCollector} (harrivals : ∀ n, c.arrivals n = []) (w : GcState) :
    c.settle w = { w with sessions := w.sessions + 1 } := by
  rw [settle, harrivals]
  rfl

section DryRun

variable [Blake2b] {c : GarbageCollector} {contents : Nat → GroupStorage} {after : Option Bytes}
  {g : GroupStorage} {keys : List Key} {group : Nat} {rest : List Nat}

structure Following (c : GarbageCollector) (contents : Nat → GroupStorage) (group : Nat)
    (rest : List Nat) (after : Option Bytes) (r d : GcState) : Prop extends Pending contents rest r d where
  exact : DigestExact (r.groups group)
  lagging : ∃ removed, Lagging c.retention.versions after removed (r.groups group) (contents group)

structure Scanned (c : GarbageCollector) (contents : Nat → GroupStorage) (group : Nat) (rest : List Nat)
    (keys : List Key) (r d : GcState) : Prop extends Pending contents rest r d where
  exact : DigestExact (r.groups group)
  lagging : ∀ last, keys.getLast? = some last → last.Encodable ∧ ∃ removed,
    Lagging c.retention.versions (some (last.encode .tags)) removed (r.groups group) (contents group)

theorem collectPage_dry (hpage : g.logPage after c.batchSize = .ok keys) :
    readSession (c.collectPage after true) g =
      (c.retention.plan g keys).map fun found => (keys, planTotals found) := by
  have hstart : (start g).storage.logPage after c.batchSize = .ok keys := hpage
  have hplan : c.retention.plan (start g).storage keys = c.retention.plan g keys := rfl
  simp only [readSession, collectPage, hstart, collect_eq, hplan, bind, Except.bind, if_true]
  cases c.retention.plan g keys with
  | error e => rfl
  | ok found => rfl

theorem collectPage_real (hg : DigestExact g) (hpage : g.logPage after c.batchSize = .ok keys) :
    (∃ e, c.retention.plan g keys = .error e ∧
      GroupSessionManager.session (c.collectPage after false) (.ok ()) g = (.error e, g)) ∨
    ∃ found g', c.retention.plan g keys = .ok found ∧ Removed (found.map Prod.fst) g g' ∧
      GroupSessionManager.session (c.collectPage after false) (.ok ()) g = (.ok (keys, planTotals found), g') := by
  have hstart : (start g).storage.logPage after c.batchSize = .ok keys := hpage
  have hbody : c.collectPage after false (.start g) = (do
      let found ← c.retention.plan g keys
      let s ← (start g).removeRecords (found.map Prod.fst)
      return ((keys, planTotals found), s)) := by
    have hplan : c.retention.plan (start g).storage keys = c.retention.plan g keys := rfl
    simp only [collectPage, hstart, collect_eq, hplan, bind, Except.bind]
    cases c.retention.plan g keys with
    | error e => rfl
    | ok found =>
      simp only [Bool.false_eq_true, if_false]
      cases (start g).removeRecords (found.map Prod.fst) with
      | error e => rfl
      | ok s => rfl
  cases hplan : c.retention.plan g keys with
  | error e =>
    refine .inl ⟨e, rfl, ?_⟩
    rw [hplan] at hbody
    simp only [GroupSessionManager.session, hbody, bind, Except.bind]
  | ok found =>
    have hplanned := planned_of_plan hplan
    obtain ⟨s, s', hremove, hflush, hremoved⟩ := removeRecords_ok hg hplanned.nodup (by
      intro k hk
      obtain ⟨e, he, rfl⟩ := mem_map.mp hk
      exact hplanned.owned e he)
    refine .inr ⟨found, s'.storage, rfl, hremoved, session_ok (s := s) ?_ hflush⟩
    rw [hbody, hplan]
    show (do
      let s ← (start g).removeRecords (found.map Prod.fst)
      return ((keys, planTotals found), s)) = _
    rw [hremove]
    rfl

section

variable (hstored : ∀ group, Stored (contents group)) (hcommit : ∀ n, c.commit n = .ok ())
  (harrivals : ∀ n, c.arrivals n = [])

include hstored hcommit harrivals

theorem lockstep_session (hrest : group ∉ rest) (after : Option Bytes) :
    Lockstep (Rehearsed contents) (Following c contents group rest after)
      (c.session group false (c.collectPage after false)) (c.session group true (c.collectPage after true))
      fun out r d => Scanned c contents group rest out.1 r d := by
  intro r d h
  obtain ⟨ks, hpage, hks⟩ := logPage_ok (hstored group).keyed after c.batchSize
  obtain ⟨removed, hlag⟩ := h.lagging
  have hgroups : d.groups group = contents group := by rw [h.unchanged]
  have hreal : (r.groups group).logPage after c.batchSize = .ok (ks.take c.batchSize) := by
    rw [hlag.logPage_eq, hpage]
  have hdry : c.session group true (c.collectPage after true) d =
      (((c.retention.plan (contents group) (ks.take c.batchSize)).map fun found =>
        (ks.take c.batchSize, planTotals found)).mapError .python, c.settle d) := by
    rw [session, if_pos rfl, hgroups, collectPage_dry hpage]
  have hplan : c.retention.plan (r.groups group) (ks.take c.batchSize) =
      c.retention.plan (contents group) (ks.take c.batchSize) := by
    refine hlag.plan_eq (hstored group).logged fun k hk => ?_
    exact ⟨hks.encodable k (mem_of_mem_take hk), hks.later (mem_of_mem_take hk)⟩
  rw [hdry, settle_quiet harrivals]
  rcases collectPage_real h.exact hreal with ⟨e, hfail, hrun⟩ | ⟨found, g', hfound, hgone, hrun⟩
  · rw [← hcommit r.sessions] at hrun
    rw [c.session_write group _ r hrun, settle_quiet harrivals, GcState.withGroup, Function.update_eq_self,
      ← hplan, hfail]
    exact ⟨rfl, ⟨h.report, h.dry, h.unchanged, h.idle⟩, by rintro _ ⟨⟩⟩
  · rw [← hcommit r.sessions] at hrun
    rw [c.session_write group _ r hrun, settle_quiet harrivals, ← hplan, hfound]
    refine ⟨rfl, ⟨h.report, h.dry, h.unchanged, h.idle⟩, ?_⟩
    intro out hout
    obtain rfl := Except.ok.inj hout
    have hself : (Function.update r.groups group g') group = g' := Function.update_self ..
    refine ⟨⟨⟨h.report, h.dry, h.unchanged, h.idle⟩, ?_⟩, ?_, ?_⟩
    · intro j hj
      have hne : j ≠ group := fun heq => hrest (heq ▸ hj)
      exact (Function.update_of_ne hne ..).trans (h.ahead j hj)
    · show DigestExact (Function.update r.groups group g' group)
      rw [hself]
      exact hgone.exact
    · intro last hlast
      have hlistlast := mem_of_getLast? hlast
      have hinlast := mem_of_mem_take hlistlast
      refine ⟨hks.encodable last hinlast, removed ++ found.map Prod.fst, ?_⟩
      show Lagging _ _ _ (Function.update r.groups group g' group) _
      rw [hself]
      rw [hplan] at hfound
      have hout := outside_of_plan hfound
      refine hlag.extend ?_ (fun k hk => (hout k hk).2) (fun b hb => (hks.later hinlast b hb).le) ?_
        hgone.logs hgone.tags
      · exact fun k hk => hks.encodable k (mem_of_mem_take (hout k hk).1)
      · exact fun k hk => hks.upto hlast (hout k hk).1

theorem lockstep_scanPage (hrest : group ∉ rest) (after : Option Bytes) :
    Lockstep (Rehearsed contents) (Following c contents group rest after) (c.scanPage group after)
      (c.scanPage group after) fun out r d =>
        out.elim (fun after => Following c contents group rest after r d) fun _ => Pending contents rest r d := by
  have hstep : Lockstep (Rehearsed contents) (Following c contents group rest after)
      (c.scanStep false group after) (c.scanStep true group after) fun out r d =>
        out.elim (fun after => Following c contents group rest after r d)
          fun _ => Pending contents rest r d := by
    refine Lockstep.bind (lockstep_session hstored hcommit harrivals hrest after) ?_
    rintro ⟨keys, count, size⟩
    refine Lockstep.bind (M := fun _ => Scanned c contents group rest keys) (Lockstep.modify ?_) fun _ => ?_
    · intro r d h
      have hnext := h.toPending.totals keys count size
      exact ⟨hnext.toRehearsed, hnext, h.exact, h.lagging⟩
    · by_cases hshort : keys.length < c.batchSize
      · rw [if_pos hshort, if_pos hshort]
        exact Lockstep.ret fun r d h => ⟨h.toRehearsed, h.toPending⟩
      · rw [if_neg hshort, if_neg hshort]
        refine Lockstep.bind (M := fun b r d => Following c contents group rest (some b) r d)
          (Lockstep.lift ?_) fun b => ?_
        · intro r d h
          refine ⟨h.toRehearsed, ?_⟩
          intro b hcursor
          unfold cursorAfter at hcursor
          split at hcursor
          · cases hcursor
          · rename_i last hlast
            obtain ⟨henc, hlag⟩ := h.lagging last hlast
            rw [Key.toBytes_tags_eq_ok.mpr ⟨henc, rfl⟩] at hcursor
            cases hcursor
            exact ⟨h.toPending, h.exact, hlag⟩
        · refine Lockstep.bind (M := fun _ r d => Following c contents group rest (some b) r d) ?_
            fun _ => Lockstep.ret fun r d h => ⟨h.toRehearsed, h⟩
          intro r d h
          have hreal : whenever (false = false) c.hotStep r = (.ok (), r) := by
            rw [whenever, if_pos rfl, hotStep_idle h.idle]
          have hdry : whenever (true = false) c.hotStep d = (.ok (), d) := rfl
          rw [hreal, hdry]
          exact ⟨rfl, h.toRehearsed, fun _ _ => h⟩
  intro r d h
  have hreal : r.status.dryRun = false := by rw [h.report]
  have hrun (w : GcState) : c.scanPage group after w = c.scanStep w.status.dryRun group after w := rfl
  rw [hrun, hrun, hreal, h.dry]
  exact hstep r d h

theorem lockstep_scan : Lockstep (Rehearsed contents)
      (Pending contents (range c.partitioner.totalGroups)) c.scan c.scan fun _ => Rehearsed contents := by
  have heach : Lockstep (Rehearsed contents) (fun r d => (range c.partitioner.totalGroups).Nodup ∧
      Pending contents (range c.partitioner.totalGroups) r d) c.scan c.scan
      fun _ r d => ([] : List Nat).Nodup ∧ Pending contents [] r d := by
    refine Lockstep.each (fun groups r d => groups.Nodup ∧ Pending contents groups r d)
      (fun _ _ _ h => h.2.toRehearsed) ?_
    intro group rest r d h
    obtain ⟨hnot, hrest⟩ := nodup_cons.mp h.1
    have hgroup := h.2.ahead group mem_cons_self
    have hstart : Following c contents group rest none r d := by
      refine ⟨⟨h.2.toRehearsed, fun j hj => h.2.ahead j (mem_cons_of_mem _ hj)⟩, ?_, [], ?_⟩
      · rw [hgroup]
        exact (hstored group).toDigestExact
      · rw [hgroup]
        exact lagging_refl ..
    have hpages : Lockstep (Rehearsed contents) (Following c contents group rest none)
        (c.scanGroup group) (c.scanGroup group) fun _ => Pending contents rest :=
      Lockstep.iterate (fun _ _ _ h => h.toRehearsed)
        (fun after => lockstep_scanPage hstored hcommit harrivals hnot after) c.fuel none
    obtain ⟨heq, hrehearsed, hpending⟩ := hpages r d hstart
    exact ⟨heq, hrehearsed, fun u hu => ⟨hrest, hpending u hu⟩⟩
  intro r d h
  obtain ⟨heq, hrehearsed, hok⟩ := heach r d ⟨nodup_range, h⟩
  exact ⟨heq, hrehearsed, fun u hu => (hok u hu).2.toRehearsed⟩

end

def Unchanged (contents : Nat → GroupStorage) (d : GcState) : Prop :=
  d.groups = contents ∧ d.status.dryRun = true ∧ d.status.error = none

section

variable (harrivals : ∀ n, c.arrivals n = []) (hkeyed : ∀ group, WellKeyed (contents group).tags)

include harrivals hkeyed

theorem halts_scanPage (group : Nat) (after : Option Bytes) :
    Halts (Unchanged contents) .unfinished (c.scanPage group after) fun r => r.elim
      (fun after' => listed (contents group) after' < listed (contents group) after) fun _ => True := by
  obtain ⟨ks, hpage, hks⟩ := logPage_ok (hkeyed group) after c.batchSize
  have hsession : Halts (Unchanged contents) .unfinished
      (c.session group true (c.collectPage after true)) fun out => out.1 = ks.take c.batchSize := by
    intro d hd
    rw [session, if_pos rfl, hd.1, collectPage_dry hpage, settle_quiet harrivals]
    refine ⟨hd, ?_⟩
    cases c.retention.plan (contents group) (ks.take c.batchSize) with
    | error e => exact ⟨by rintro ⟨⟩, by rintro _ ⟨⟩⟩
    | ok found =>
      refine ⟨by rintro ⟨⟩, ?_⟩
      intro out hout
      obtain rfl := Except.ok.inj hout
      rfl
  have hstep : Halts (Unchanged contents) .unfinished (c.scanStep true group after) fun r => r.elim
      (fun after' => listed (contents group) after' < listed (contents group) after) fun _ => True := by
    refine Halts.bind hsession ?_
    rintro ⟨keys, count, size⟩ hkeys
    refine Halts.bind (M := fun _ => True) (fun d hd => ⟨hd, by rintro ⟨⟩, fun _ _ => trivial⟩) fun _ _ => ?_
    by_cases hshort : keys.length < c.batchSize
    · rw [if_pos hshort]
      exact Halts.ret trivial
    · rw [if_neg hshort]
      refine Halts.bind (M := fun b => listed (contents group) (some b) < listed (contents group) after)
        (Halts.lift ?_ ?_) fun b hb => Halts.bind (M := fun _ => True) (Halts.ret trivial) fun _ _ => Halts.ret hb
      · unfold cursorAfter
        split
        · rintro ⟨⟩
        · rename_i last _
          cases last.toBytes .tags with
          | error e => rintro ⟨⟩
          | ok b => rintro ⟨⟩
      · intro b hcursor
        unfold cursorAfter at hcursor
        split at hcursor
        · cases hcursor
        · rename_i last hlast
          have hin : last ∈ ks := by
            have hmem := mem_of_getLast? hlast
            dsimp only at hkeys
            rw [hkeys] at hmem
            exact mem_of_mem_take hmem
          rw [Key.toBytes_tags_eq_ok.mpr ⟨hks.encodable last hin, rfl⟩] at hcursor
          cases hcursor
          exact hks.listed_lt hin
  intro d hd
  have hrun : c.scanPage group after d = c.scanStep d.status.dryRun group after d := rfl
  rw [hrun, hd.2.1]
  exact hstep d hd

theorem halts_scan (hfuel : ∀ group < c.partitioner.totalGroups, (contents group).tags.entries.length < c.fuel) :
    Halts (Unchanged contents) .unfinished c.scan fun _ => True := by
  refine Halts.each fun group hgroup => ?_
  refine Halts.iterate (listed (contents group)) (halts_scanPage harrivals hkeyed group) ?_
  exact (length_filter_le _ _).trans_lt (hfuel group (mem_range.mp hgroup))

end

theorem dry_run_predicts_pass (c : GarbageCollector) (w : GcState)
    (hstored : ∀ group, Stored (w.groups group)) (hcommit : ∀ n, c.commit n = .ok ())
    (harrivals : ∀ n, c.arrivals n = []) (hhot : w.hot = []) (halive : w.alive = true)
    (hpending : w.pending = false) (hstate : w.status.state ≠ .running) : ∃ real dry, request w false = .ok real ∧
      request w true = .ok dry ∧ (c.pass real).2.status = { (c.pass dry).2.status with dryRun := false } ∧
      (c.pass dry).2.groups = w.groups ∧
      ((∀ group < c.partitioner.totalGroups, (w.groups group).tags.entries.length < c.fuel) →
        (c.pass dry).2.status.error ≠ some .unfinished) := by
  have hrequest (dryRun : Bool) : request w dryRun =
      .ok { w with status := { state := .queued, dryRun }, pending := true } := by
    rw [request, halive, hpending, if_neg (by decide), if_neg]
    simpa using hstate
  refine ⟨_, _, hrequest false, hrequest true, ?_⟩
  obtain ⟨real, hreal⟩ : ∃ real, real = startPass
      { w with status := { state := .queued, dryRun := false }, pending := true } := ⟨_, rfl⟩
  obtain ⟨dry, hdry⟩ : ∃ dry, dry = startPass
      { w with status := { state := .queued, dryRun := true }, pending := true } := ⟨_, rfl⟩
  have hstart : Pending w.groups (range c.partitioner.totalGroups) real dry := by
    rw [hreal, hdry]
    exact ⟨⟨rfl, rfl, rfl, hhot⟩, fun _ _ => rfl⟩
  obtain ⟨heq, hend, _⟩ := lockstep_scan hstored hcommit harrivals real dry hstart
  have hpass (v : GcState) : (c.pass v).2 = finishPass
      (c.scan (startPass v)).1 (c.scan (startPass v)).2 := rfl
  rw [hpass, hpass, ← hreal, ← hdry, heq]
  refine ⟨hend.finish _, ?_, ?_⟩
  · cases (c.scan dry).1 with
    | ok u => exact hend.unchanged
    | error e => exact hend.unchanged
  · intro hfuel
    obtain ⟨hkept, hhalts, _⟩ := halts_scan harrivals (fun group => (hstored group).keyed) hfuel dry
      ⟨hstart.unchanged, hstart.dry, by rw [hdry]; rfl⟩
    cases hscan : (c.scan dry).1 with
    | ok u =>
      show (c.scan dry).2.status.error ≠ some .unfinished
      rw [hkept.2.2]
      exact nofun
    | error e =>
      rw [hscan] at hhalts
      intro hsome
      exact hhalts (congrArg Except.error (Option.some.inj hsome))

end DryRun

namespace Sample

theorem rehearsal_predicts : ∃ real dry, request { collectable false with status := {} } false = .ok real ∧
      request { collectable false with status := {} } true = .ok dry ∧
      (collector.pass real).2.status = { (collector.pass dry).2.status with dryRun := false } ∧
      (collector.pass dry).2.groups = (collectable false).groups := by
  obtain ⟨real, dry, hreal, hdry, hstatus, hgroups, _⟩ := dry_run_predicts_pass collector
    { collectable false with status := {} } (by
      intro group
      show Stored ((collectable false).groups group)
      by_cases hgroup : group = 0
      · subst hgroup
        exact stored_runAll _
      · have hempty : (collectable false).groups group = .empty := if_neg hgroup
        rw [hempty]
        exact stored_runAll [])
    (fun _ => rfl) (fun _ => rfl) rfl rfl rfl (by decide)
  exact ⟨real, dry, hreal, hdry, hstatus, hgroups⟩

end Sample

end Tourillon
