import Tourillon.Library.Machine
import Tourillon.Store.Fanout

namespace Tourillon

open Endian Exceptional List

variable {targets : List (String × Option String)} (answer : WriteAnswer) {i : Nat} {e : Preference}
  {target : String × Option String} {preferences : List Preference} {record : Record} {quorum : Int}
  {arrivals : List (List Nat)} {version : Option Version}

section Runs

variable [Blake2b] {d : Deployment} {o : Order} {f : Fleet} {s : Fan} {i : Nat} {t t' : FanTask}

structure Coordinating (o : Order) (s : Fan) : Prop where
  consistent : Consistent s.fleet
  issued : o.record ∈ s.fleet.issued

section

variable (h : Coordinating o s)

include h

theorem Coordinating.step (a : FanAction) : Coordinating o (s.step d o a) := by
  cases a with
  | other a =>
    have hstep := h.consistent.step (d := d) a
    exact ⟨hstep.consistent, hstep.issued.subset h.issued⟩
  | task i a =>
    unfold Fan.step
    dsimp only
    split
    · rename_i t _
      have hstep := (step_spec (d := d) h.consistent h.issued t a).grows
      exact ⟨hstep.consistent, hstep.issued ▸ h.issued⟩
    · exact h

theorem Coordinating.run (acts : List FanAction) : Coordinating o (s.run d o acts) := by
  induction acts generalizing s with
  | nil => exact h
  | cons a acts ih => exact ih (h.step a)

theorem Coordinating.issued_step (a : FanAction) : s.fleet.issued <+: (s.step d o a).fleet.issued := by
  cases a with
  | other a => exact (h.consistent.step (d := d) a).issued
  | task i a =>
    unfold Fan.step
    dsimp only
    split
    · rename_i t _
      rw [(step_spec (d := d) h.consistent h.issued t a).grows.issued]
    · exact prefix_refl _

theorem Coordinating.issued_run (acts : List FanAction) : s.fleet.issued <+: (s.run d o acts).fleet.issued := by
  induction acts generalizing s with
  | nil => exact prefix_refl _
  | cons a acts ih => exact (h.issued_step a).trans (ih (h.step a))

end

theorem Fan.run_append (s : Fan) (pre rest : List FanAction) :
    s.run d o (pre ++ rest) = (s.run d o pre).run d o rest := foldl_append

theorem Fan.tasks_step (s : Fan) (a : FanAction) (ht : (s.step d o a).tasks[i]? = some t') :
    s.tasks[i]? = some t' ∨ ∃ b t, a = .task i b ∧ s.tasks[i]? = some t ∧
      (s.step d o a).fleet = (t.step d o s.fleet b).2 ∧ t' = (t.step d o s.fleet b).1 := by
  cases a with
  | other a => exact .inl ht
  | task j b =>
    cases hj : s.tasks[j]? with
    | none =>
      simp only [Fan.step, hj] at ht
      exact .inl ht
    | some t =>
      simp only [Fan.step, hj] at ht ⊢
      rw [getElem?_set] at ht
      split at ht
      · rename_i heq
        subst heq
        split at ht
        · cases ht
          exact .inr ⟨b, t, rfl, hj, rfl, rfl⟩
        · cases ht
      · exact .inl ht

abbrev Fan.Sometime (d : Deployment) (o : Order) (s : Fan) (acts : List FanAction) (P : Fleet → Prop) : Prop :=
  Machine.Sometime (Fan.step d o) s acts fun t => P t.fleet

structure Followed (d : Deployment) (o : Order) (s : Fan) (acts : List FanAction) (t₀ t : FanTask) :
    Prop where
  target : t.target = t₀.target
  intent : t.intent = t₀.intent
  backed : t.served = true → s.Sometime d o acts (Backed d o t₀)
  answered : ∀ r, t.phase = .done (.ok r) → r = o.record ∧ t.served = true

omit [Blake2b] in
theorem backed_congr (ht : t'.target = t.target) (hi : t'.intent = t.intent) (h : Backed d o t f) :
    Backed d o t' f := by
  obtain ⟨hstored, howed⟩ := h
  refine ⟨?_, ?_⟩
  · rw [ht]
    exact hstored
  · rw [ht, hi]
    exact howed

theorem Fan.follow {Q : List FanAction → FanTask → FanTask → Prop} (start : ∀ t ∈ s.tasks, Q [] t t)
    (stay : ∀ acts a t₀ t, Q acts t₀ t → Q (acts ++ [a]) t₀ t)
    (move : ∀ acts i b t₀ t, (s.run d o acts).tasks[i]? = some t →
      (s.run d o (acts ++ [.task i b])).fleet = (t.step d o (s.run d o acts).fleet b).2 →
      Q acts t₀ t → Q (acts ++ [.task i b]) t₀ (t.step d o (s.run d o acts).fleet b).1)
    (acts : List FanAction) (ht : (s.run d o acts).tasks[i]? = some t) :
    ∃ t₀, s.tasks[i]? = some t₀ ∧ Q acts t₀ t := by
  induction acts using reverseRecOn generalizing t with
  | nil => exact ⟨t, ht, start t (mem_of_getElem? ht)⟩
  | append_singleton acts a ih =>
    have hnow : s.run d o (acts ++ [a]) = (s.run d o acts).step d o a := s.run_append acts [a]
    rw [hnow] at ht
    rcases Fan.tasks_step _ a ht with hold | ⟨b, u, rfl, hu, hfleet, rfl⟩
    · obtain ⟨t₀, ht₀, hq⟩ := ih hold
      exact ⟨t₀, ht₀, stay acts a t₀ t hq⟩
    · obtain ⟨t₀, ht₀, hq⟩ := ih hu
      exact ⟨t₀, ht₀, move acts i b t₀ u hu (hnow ▸ hfleet) hq⟩

theorem followed_run (h : Coordinating o s) (hfresh : ∀ t ∈ s.tasks, t.served = false ∧ t.phase = .sent)
    (acts : List FanAction) (ht : (s.run d o acts).tasks[i]? = some t) :
    ∃ t₀, s.tasks[i]? = some t₀ ∧ Followed d o s acts t₀ t := by
  refine Fan.follow ?_ ?_ ?_ acts ht
  · intro t ht
    obtain ⟨hserved, hphase⟩ := hfresh t ht
    refine ⟨rfl, rfl, ?_, ?_⟩
    · rw [hserved]
      nofun
    · rw [hphase]
      nofun
  · intro acts a t₀ t hfollowed
    refine ⟨hfollowed.target, hfollowed.intent, ?_, hfollowed.answered⟩
    intro hs
    exact (hfollowed.backed hs).mono (prefix_append _ _) fun _ => id
  · intro acts i b t₀ t _ hfleet hfollowed
    have hcoord := h.run (d := d) acts
    have hstep := step_spec (d := d) hcoord.consistent hcoord.issued t b
    refine ⟨hstep.target.trans hfollowed.target, hstep.intent.trans hfollowed.intent, ?_, ?_⟩
    · intro hs
      rcases hstep.served hs with hbefore | hbacked
      · exact (hfollowed.backed hbefore).mono (prefix_append _ _) fun _ => id
      · have hnow := backed_congr hfollowed.target.symm hfollowed.intent.symm hbacked
        rw [← hfleet] at hnow
        exact Machine.Sometime.now hnow
    · intro r hdone
      rcases hstep.answered r hdone with hbefore | hnew
      · obtain ⟨hr, hs⟩ := hfollowed.answered r hbefore
        exact ⟨hr, hstep.kept hs⟩
      · exact hnew

end Runs

theorem mem_writeTarget (h : writeTarget e = some target) : (e.handoff = some target.1 ∧ target.2 = some e.nodeId) ∨
      e.handoff = none ∧ e.writable = true ∧ target = (e.nodeId, none) := by
  unfold writeTarget at h
  split at h
  · rename_i handoff hh
    cases h
    exact .inl ⟨hh, rfl⟩
  · rename_i hh
    split at h
    · rename_i hw
      cases h
      exact .inr ⟨hh, hw, rfl⟩
    · cases h

theorem WellPlaced.tail {rest : List Preference} (h : WellPlaced (e :: rest)) : WellPlaced rest := by
  refine ⟨(nodup_cons.mp h.owners).2, ?_, ?_⟩
  · have hall := h.handoffs
    rw [flatMap_cons] at hall
    exact hall.of_append_right
  · intro x hx y hy
    exact h.apart x (mem_cons_of_mem _ hx) y (mem_cons_of_mem _ hy)

theorem WellPlaced.destinations_nodup {β : Type} {pick : Preference → Option β} {name : β → String}
    (hpick : ∀ e b, pick e = some b → e.handoff = some (name b) ∨ e.handoff = none ∧ name b = e.nodeId)
    (h : WellPlaced preferences) : ((preferences.filterMap pick).map name).Nodup := by
  induction preferences with
  | nil => exact nodup_nil
  | cons e rest ih =>
    rw [filterMap_cons]
    split
    · exact ih h.tail
    · rename_i target htarget
      rw [map_cons, nodup_cons]
      refine ⟨?_, ih h.tail⟩
      intro hin
      obtain ⟨other, hother, heq⟩ := mem_map.mp hin
      obtain ⟨e', he', hwrite⟩ := mem_filterMap.mp hother
      have hhead : e ∈ e :: rest := mem_cons_self ..
      have htail : e' ∈ e :: rest := mem_cons_of_mem _ he'
      rcases hpick e target htarget with hh | ⟨_, hname⟩
      · rcases hpick e' other hwrite with hh' | ⟨_, hname'⟩
        · have hnodup := h.handoffs
          rw [flatMap_cons, nodup_append] at hnodup
          refine hnodup.2.2 (name target) (by simp [hh]) (name target) ?_ rfl
          exact mem_flatMap.mpr ⟨e', he', by simp [hh', heq]⟩
        · exact h.apart e' htail e hhead (name target) hh (heq.symm.trans hname')
      · rcases hpick e' other hwrite with hh' | ⟨_, hname'⟩
        · exact h.apart e hhead e' htail (name other) hh' (heq.trans hname)
        · refine (nodup_cons.mp h.owners).1 (mem_map.mpr ⟨e', he', ?_⟩)
          rw [← hname', heq, hname]

theorem WellPlaced.targets_nodup (h : WellPlaced preferences) :
    ((writeTargets preferences).map Prod.fst).Nodup := by
  refine h.destinations_nodup ?_
  intro e target htarget
  rcases mem_writeTarget htarget with ⟨hh, _⟩ | ⟨hh, _, rfl⟩
  · exact .inl hh
  · exact .inr ⟨hh, rfl⟩

structure Gathered (answer : WriteAnswer) (n : Nat) (running : List Nat) (s : Writes) : Prop where
  pending : ∀ i ∈ running, i < n
  collected : ∃ done : List Nat, done.Nodup ∧ (∀ i ∈ done, i ∉ running ∧ i < n) ∧
    s.applied = done.filterMap fun i => (answer i).toOption

theorem applied_collect (done : List Nat) (s : Writes) : (Writes.collect answer done s).applied =
      s.applied ++ done.filterMap fun i => (answer i).toOption := by
  unfold Writes.collect
  induction done generalizing s with
  | nil => simp
  | cons i done ih =>
    rw [foldl_cons, ih, filterMap_cons]
    cases answer i with
    | ok r => simp [Except.toOption]
    | error e => simp [Except.toOption]

theorem Gathered.collect {answer : WriteAnswer} {n : Nat} {running : List Nat} {s : Writes}
    (h : Gathered answer n running s) {batch : List Nat} (hnodup : batch.Nodup) (hsub : ∀ i ∈ batch, i ∈ running) :
    Gathered answer n (running.filter fun i => i ∉ batch) (Writes.collect answer batch s) := by
  obtain ⟨done, hdone, hsettled, happlied⟩ := h.collected
  refine ⟨fun i hi => h.pending i (mem_of_mem_filter hi), done ++ batch, ?_, ?_, ?_⟩
  · rw [nodup_append]
    refine ⟨hdone, hnodup, ?_⟩
    intro i hi j hj heq
    exact (hsettled i hi).1 (heq ▸ hsub j hj)
  · intro i hi
    rcases mem_append.mp hi with hold | hnew
    · exact ⟨fun hin => (hsettled i hold).1 (mem_of_mem_filter hin), (hsettled i hold).2⟩
    · refine ⟨?_, h.pending i (hsub i hnew)⟩
      intro hin
      simpa [hnew] using (mem_filter.mp hin).2
  · rw [applied_collect, happlied, filterMap_append]

theorem gathered_gather (n : Nat) (stop : Writes → Bool) (arrivals : List (List Nat)) : Gathered answer n
      (Gather.gather (Writes.collect answer) stop arrivals (range n) ⟨[], []⟩).running
      (Gather.gather (Writes.collect answer) stop arrivals (range n) ⟨[], []⟩).state := by
  refine Gather.gather_inv (fun _ _ _ h hnodup hsub => h.collect hnodup hsub) arrivals ?_
  exact ⟨fun i hi => mem_range.mp hi, [], nodup_nil, nofun, rfl⟩

theorem acknowledge_cases {answer : WriteAnswer}
    (h : acknowledge record targets quorum answer arrivals = .ok version) :
    ∃ done : List Nat, done.Nodup ∧ (∀ i ∈ done, i < targets.length) ∧
      quorum.toNat ≤ (selectVersion (versionsFromRecords (done.filterMap fun i => (answer i).toOption))).2 ∧
      version = (selectVersion (versionsFromRecords (done.filterMap fun i => (answer i).toOption))).1 := by
  obtain ⟨_, done, hnodup, hsettled, happlied⟩ :=
    gathered_gather answer targets.length (fun s => decide
      (quorum.toNat ≤ (selectVersion (versionsFromRecords s.applied)).2)) arrivals
  refine ⟨done, hnodup, fun i hi => (hsettled i hi).2, ?_⟩
  rw [← happlied]
  unfold acknowledge at h
  dsimp only at h
  split at h
  · cases h
  · simp only [bind_eq_ok, pure_eq_ok] at h
    obtain ⟨token, _, _, hquorum, rfl⟩ := h
    refine ⟨?_, rfl⟩
    unfold ensureQuorum at hquorum
    split at hquorum
    · cases hquorum
    · exact not_lt.mp ‹_›

def targetName (targets : List (String × Option String)) (i : Nat) : String :=
  (targets.map Prod.fst).getD i ""

theorem targetName_of_getElem? (h : targets[i]? = some target) : targetName targets i = target.1 := by
  rw [targetName, getD_eq_getElem?_getD, getElem?_map, h]
  rfl

theorem targetName_inj (h : (targets.map Prod.fst).Nodup) {j : Nat} (hi : i < targets.length)
    (hj : j < targets.length) (heq : targetName targets i = targetName targets j) : i = j := by
  have hi' : i < (targets.map Prod.fst).length := by rwa [length_map]
  have hj' : j < (targets.map Prod.fst).length := by rwa [length_map]
  simp only [targetName, getD_eq_getElem?_getD, getElem?_eq_getElem hi',
    getElem?_eq_getElem hj', Option.getD_some] at heq
  exact h.getElem_inj_iff.mp heq

theorem selectVersion_count_le (versions : List Version) : (selectVersion versions).2 ≤ versions.length := by
  rcases selectVersion_cases versions with ⟨hsel, _⟩ | ⟨v, hsel, _⟩
  · rw [hsel]
    exact Nat.zero_le _
  · rw [hsel]
    exact count_le_length

theorem answered_names (hdistinct : (targets.map Prod.fst).Nodup) {done : List Nat} (hnodup : done.Nodup)
    (hlt : ∀ i ∈ done, i < targets.length) : ∃ names : List String, names.Nodup ∧
      names.length = (done.filterMap fun i => (answer i).toOption).length ∧
      ∀ n ∈ names, ∃ i r, i < targets.length ∧ targetName targets i = n ∧ answer i = .ok r := by
  obtain ⟨good, hgood⟩ : ∃ good, good = done.filter fun i => ((answer i).toOption).isSome := ⟨_, rfl⟩
  have hmem (i : Nat) (hi : i ∈ good) : i < targets.length ∧ ∃ r, answer i = .ok r := by
    rw [hgood] at hi
    obtain ⟨hin, hsome⟩ := mem_filter.mp hi
    obtain ⟨r, hr⟩ := Option.isSome_iff_exists.mp hsome
    exact ⟨hlt i hin, r, mem_toOption.mp hr⟩
  refine ⟨good.map (targetName targets), ?_, ?_, ?_⟩
  · have hgoodNodup : good.Nodup := hgood ▸ hnodup.filter _
    refine List.Nodup.map_on ?_ hgoodNodup
    intro i hi j hj heq
    exact targetName_inj hdistinct (hmem i hi).1 (hmem j hj).1 heq
  · rw [length_filterMap_eq_countP, countP_eq_length_filter, ← hgood, length_map]
  · intro n hn
    obtain ⟨i, hi, rfl⟩ := mem_map.mp hn
    obtain ⟨hin, r, hr⟩ := hmem i hi
    exact ⟨i, r, hin, rfl, hr⟩

theorem acknowledged_targets (hdistinct : (targets.map Prod.fst).Nodup) {answer : WriteAnswer}
    (h : acknowledge record targets quorum answer arrivals = .ok version) :
    ∃ copies : Finset String, quorum.toNat ≤ copies.card ∧ ∀ n ∈ copies,
      ∃ i r, i < targets.length ∧ targetName targets i = n ∧ answer i = .ok r := by
  obtain ⟨done, hnodup, hlt, hquorum, _⟩ := acknowledge_cases h
  have hlength := hquorum.trans (selectVersion_count_le _)
  rw [versionsFromRecords, length_map] at hlength
  obtain ⟨names, hnames, hcount, hmem⟩ := answered_names answer hdistinct hnodup hlt
  refine ⟨names.toFinset, ?_, fun n hn => hmem n (mem_toFinset.mp hn)⟩
  rw [toFinset_card_of_nodup hnames, hcount]
  exact hlength

theorem outcome_ok {s : Fan} {r : Record} (h : s.outcome i = .ok r) :
    ∃ t, s.tasks[i]? = some t ∧ t.phase = .done (.ok r) := by
  unfold Fan.outcome at h
  split at h
  · rename_i target intent served result ht
    exact ⟨_, ht, by rw [h]⟩
  · cases h

section Tasks

variable [Blake2b] {d : Deployment} {o : Order} {fan : Fan} {acts : List FanAction}

theorem Coordinating.task (h : Coordinating o fan) (htasks : fan.tasks = targets.map FanTask.create) {i : Nat}
    {r : Record} (hr : (fan.run d o acts).outcome i = .ok r) : ∃ target, targets[i]? = some target ∧ r = o.record ∧
      fan.Sometime d o acts (Backed d o (.create target)) := by
  have hfresh (t : FanTask) (ht : t ∈ fan.tasks) : t.served = false ∧ t.phase = .sent := by
    rw [htasks] at ht
    obtain ⟨target, _, rfl⟩ := mem_map.mp ht
    exact ⟨rfl, rfl⟩
  obtain ⟨t, ht, hphase⟩ := outcome_ok hr
  obtain ⟨t₀, ht₀, hfollowed⟩ := followed_run h hfresh acts ht
  rw [htasks, getElem?_map, Option.map_eq_some_iff] at ht₀
  obtain ⟨target, htarget, rfl⟩ := ht₀
  obtain ⟨hrecord, hserved⟩ := hfollowed.answered r hphase
  exact ⟨target, htarget, hrecord, hfollowed.backed hserved⟩

theorem Coordinating.recordAt (h : Coordinating o fan) (hstamps : (fan.run d o acts).fleet.StampedOnce)
    {n : String} (hstored : fan.Sometime d o acts (o.StoredAt d n)) :
    fan.Sometime d o acts fun f => f.recordAt d n o.record.key = some o.record := by
  obtain ⟨pre, ⟨rest, rfl⟩, hstored⟩ := hstored
  refine ⟨pre, prefix_append _ _, ?_⟩
  have hthen := h.run (d := d) pre
  obtain ⟨r, hr, hkey, hstores⟩ := (hthen.consistent.ledger n (o.group d)).source _ hstored
  have hlater := (hthen.issued_run (d := d) rest).subset
  rw [Fan.run_append] at hstamps
  have hsame : r = o.record := hstamps.unique (hlater hr) (hlater hthen.issued) hkey
  subst hsame
  exact hthen.consistent.recordAt_iff.mpr ⟨hr, rfl, hstored, hstores⟩

end Tasks

def beginWrite (f : Fleet) (node : String) (list : PreferenceList) (addr : Address) (value : Bytes)
    (tombstone : Bool) (quorum : Int) : Except StoreError (Order × Fan) := do
  validateQuorum "write" quorum
  let found := writeRecord (f.sites node).clock (f.sites node).wall addr value list.placement.pid
    tombstone quorum.toNat
  let record ← found.1.mapError .python
  let targets := writeTargets list.preferences
  if targets = [] then .error (.noReplicaAvailable "write")
  else return (⟨node, record⟩, ⟨f.register node found, targets.map FanTask.create⟩)

section Quorum

variable [Blake2b] {d : Deployment} {f : Fleet} {node : String} {list : PreferenceList} {addr : Address}
  {value : Bytes} {tombstone : Bool} {quorum : Int} {o : Order} {fan : Fan} {acts : List FanAction}

structure Begun (f : Fleet) (node : String) (list : PreferenceList) (addr : Address) (o : Order)
    (fan : Fan) : Prop where
  coordinating : Coordinating o fan
  fresh : ∀ t ∈ fan.tasks, t.served = false ∧ t.phase = .sent
  tasks : fan.tasks = (writeTargets list.preferences).map FanTask.create
  node : o.node = node
  address : o.record.key.partitionAddress = ⟨list.placement.pid, addr⟩
  storage : ∀ n group, fan.fleet.storage n group = f.storage n group

theorem begun_of_beginWrite (hc : Consistent f)
    (h : beginWrite f node list addr value tombstone quorum = .ok (o, fan)) : Begun f node list addr o fan := by
  simp only [beginWrite, bind_eq_ok] at h
  obtain ⟨_, hquorum, record, hrecord, h⟩ := h
  split at h
  · cases h
  · cases h
    cases hfound : writeRecord (f.sites node).clock (f.sites node).wall addr value
        list.placement.pid tombstone quorum.toNat with
    | mk found clock =>
      rw [hfound] at hrecord
      cases found with
      | error e => cases hrecord
      | ok r =>
        cases hrecord
        have hadvances : Advances ⟨⟨1, 0, by decide⟩, fun _ => ⟨1, by decide⟩⟩ (fun _ => []) f
            (f.register node (.ok record, clock)) :=
          hc.registers (storable_writeRecord hquorum hfound) clock
        obtain ⟨_, hkey, _⟩ := writeRecord_ok hfound
        refine ⟨⟨hadvances.consistent, ?_⟩, ?_, rfl, rfl, ?_, ?_⟩
        · exact mem_append_right _ (mem_singleton.mpr rfl)
        · intro t ht
          obtain ⟨target, _, rfl⟩ := mem_map.mp ht
          exact ⟨rfl, rfl⟩
        · rw [hkey]
          rfl
        · intro n i
          exact f.storage_withClock node n clock i

theorem Begun.task (h : Begun f node list addr o fan) {i : Nat} {r : Record}
    (hr : (fan.run d o acts).outcome i = .ok r) :
    ∃ target, (writeTargets list.preferences)[i]? = some target ∧ r = o.record ∧
      fan.Sometime d o acts (Backed d o (.create target)) :=
  h.coordinating.task h.tasks hr

theorem Begun.copies (h : Begun f node list addr o fan) (hplaced : WellPlaced list.preferences)
    {arrivals : List (List Nat)} {version : Option Version}
    (hreturn : acknowledge o.record (writeTargets list.preferences) quorum
      (fan.run d o acts).outcome arrivals = .ok version) :
    ∃ copies : Finset String, quorum.toNat ≤ copies.card ∧ ∀ n ∈ copies,
      (∃ intent, (n, intent) ∈ writeTargets list.preferences) ∧ fan.Sometime d o acts (o.StoredAt d n) := by
  obtain ⟨copies, hcard, hcopies⟩ := acknowledged_targets hplaced.targets_nodup hreturn
  refine ⟨copies, hcard, ?_⟩
  intro n hn
  obtain ⟨i, r, hi, hname, hr⟩ := hcopies n hn
  obtain ⟨target, htarget, _, hbacked⟩ := h.task hr
  have hfst : target.1 = n := (targetName_of_getElem? htarget).symm.trans hname
  refine ⟨⟨target.2, ?_⟩, hbacked.mono (prefix_refl _) ?_⟩
  · rw [← hfst]
    exact mem_of_getElem? htarget
  · intro f' hb
    rw [← hfst]
    exact hb.stored

theorem write_quorum_copies {s : SimplePlacementStrategy} {t : Topology} {alive : String → Bool}
    (hlist : s.preferenceList t alive addr = .ok list) (hf : f.Initial) (before : List FleetAction)
    (hbegin : beginWrite (f.run d before) node list addr value tombstone quorum = .ok (o, fan))
    (acts : List FanAction) (hstamps : (fan.run d o acts).fleet.StampedOnce)
    {arrivals : List (List Nat)} {version : Option Version}
    (hreturn : acknowledge o.record (writeTargets list.preferences) quorum
      (fan.run d o acts).outcome arrivals = .ok version) :
    ∃ copies : Finset String, quorum.toNat ≤ copies.card ∧ ∀ n ∈ copies,
      fan.Sometime d o acts fun f' => f'.recordAt d n o.record.key = some o.record := by
  have hbegun := begun_of_beginWrite (hf.consistent.run before) hbegin
  obtain ⟨copies, hcard, hcopies⟩ := hbegun.copies (SimplePlacementStrategy.wellPlaced hlist) hreturn
  refine ⟨copies, hcard, ?_⟩
  intro n hn
  exact hbegun.coordinating.recordAt hstamps (hcopies n hn).2

end Quorum

namespace Sample

def strategy : SimplePlacementStrategy := ⟨2, deployment.partitioner, ⟨8, fun _ => 0⟩⟩

def membersOf (m m' : Member) : Topology where
  ring := .make (m.positions ++ m'.positions)
  registry := OrderedMap.insert (OrderedMap.insert ∅ m.nodeId m) m'.nodeId m'
  keyed := by
    have hempty : MemberRegistry.Keyed ∅ := nofun
    exact (hempty.insert m).insert m'

def readyList : PreferenceList := ⟨⟨0, 0, ⟨5, "b"⟩⟩, [⟨"b", true, none, true⟩, ⟨"a", true, none, true⟩]⟩

theorem readyList_placed :
    strategy.preferenceList (membersOf second other) (fun _ => true) ⟨[1], [2]⟩ = .ok readyList := by
  decide +kernel

def putRecord : Record := ⟨⟨firstKey, ⟨.live, {}⟩⟩, ⟨[3], 2, size_three⟩⟩

def put : Fan where
  fleet := (sites.run deployment [.wall "a" 9]).register "a"
    (writeRecord ((sites.run deployment [.wall "a" 9]).sites "a").clock 9 ⟨[1], [2]⟩ [3] 0 false 2)
  tasks := (writeTargets readyList.preferences).map FanTask.create

theorem put_begun : beginWrite (sites.run deployment [.wall "a" 9]) "a" readyList ⟨[1], [2]⟩ [3] false 2 =
    .ok (⟨"a", putRecord⟩, put) := by
  rfl

def bothServe : List FanAction := [.task 0 (.serve calm), .task 1 (.serve calm), .task 0 .answer]

theorem put_copied : ∃ copies : Finset String, 2 ≤ copies.card ∧ ∀ n ∈ copies,
    put.Sometime deployment ⟨"a", putRecord⟩ bothServe fun f =>
      f.recordAt deployment n firstKey = some putRecord := by
  have hstamps : (put.run deployment ⟨"a", putRecord⟩ bothServe).fleet.StampedOnce := by decide +kernel
  have hreturn : acknowledge putRecord (writeTargets readyList.preferences) 2
      (put.run deployment ⟨"a", putRecord⟩ bothServe).outcome [[1], [0]] =
        .ok (some (versionFromRecord putRecord)) := by
    decide +kernel
  exact write_quorum_copies readyList_placed sites_initial _ put_begun bothServe hstamps hreturn

end Sample

end Tourillon
