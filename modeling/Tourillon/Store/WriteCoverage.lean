import Tourillon.Store.WriteQuorum

namespace Tourillon

open Endian Machine Fan List

section Conditions

variable [Blake2b] (d : Deployment) (o : Order)

def FanTask.localSound (f : Fleet) (t : FanTask) : TaskAction → Bool
  | .serve faults => t.target ≠ o.node ||
    (t.transaction faults o.record (f.storage t.target (o.group d))).1.isOk
  | .fallback faults => (oblige faults o.node o.record [t.target] (f.storage o.node (o.group d))).1.isOk
  | _ => true

def FanTask.hintSound (t : FanTask) : TaskAction → Bool
  | .fail _ => t.intent.isNone || t.served
  | _ => true

namespace Fan

def localSound (s : Fan) : FanAction → Bool
  | .other _ => true
  | .task i a => s.tasks[i]?.all fun t => t.localSound d o s.fleet a

def hintSound (s : Fan) : FanAction → Bool
  | .other _ => true
  | .task i a => s.tasks[i]?.all fun t => t.hintSound a

end Fan

def Order.CoveredAt (owner : String) (f : Fleet) : Prop :=
  o.StoredAt d owner f ∨ ∃ holder, o.StoredAt d holder f ∧ o.OwedAt d holder owner f

end Conditions

section Coverage

variable [Blake2b] {d : Deployment} {o : Order} {f f' : Fleet} {s : Fan} {t : FanTask} {acts : List FanAction}
  {i : Nat} {e : Preference} {target : String × Option String}

structure FallStep (d : Deployment) (o : Order) (f' : Fleet) (t t' : FanTask) : Prop where
  falling : ∀ e, t'.phase = .falling e → t.phase = .falling e ∨ t.intent = none
  failed : ∀ e, t'.phase = .done (.error e) → t.phase = .done (.error e) ∨ t.served = true ∨
    (∃ e', t.phase = .falling e') ∧ o.StoredAt d o.node f' ∧
      (t.target ≠ o.node → o.OwedAt d o.node t.target f')

omit [Blake2b] in
theorem FallStep.keeps {t' : FanTask} (h : t'.phase = t.phase ∨ ∃ r, t'.phase = .done (.ok r)) :
    FallStep d o f' t t' := by
  rcases h with hsame | ⟨r, hdone⟩
  · exact ⟨fun e he => .inl (hsame ▸ he), fun e he => .inl (hsame ▸ he)⟩
  · refine ⟨?_, ?_⟩
    · rw [hdone]
      nofun
    · rw [hdone]
      nofun

theorem serve_keeps {faults : Faults} (h : t.localSound d o f (.serve faults) = true) :
    (t.serve d o f faults).1.phase = t.phase ∨ ∃ r, (t.serve d o f faults).1.phase = .done (.ok r) := by
  unfold FanTask.serve
  rw [transmit_ok]
  dsimp only
  simp only [FanTask.localSound, Bool.or_eq_true, decide_eq_true_iff] at h
  cases hcase : t.transaction faults o.record (f.storage t.target (o.group d)) with
  | mk result g =>
    rw [hcase] at h
    cases result with
    | ok _ =>
      obtain ⟨_, _, _, hphase⟩ := settle_spec o { t with served := true } (.ok o.record)
      exact hphase.imp id fun hdone => ⟨o.record, hdone⟩
    | error e =>
      refine .inl ?_
      dsimp only [FanTask.settle]
      split
      · rename_i hlocal
        cases h.resolve_left (not_not.mpr hlocal)
      · rfl

theorem serve_owes (h : Consistent f) (hr : o.record ∈ f.issued) (hintent : t.intent = none) (faults : Faults)
    {n : String} {b : ObligationKey} (howes : ((t.serve d o f faults).2.storage n i).Owes b) :
    (f.storage n i).Owes b := by
  unfold FanTask.serve FanTask.transaction at howes
  rw [transmit_ok, hintent] at howes
  dsimp only at howes
  split at howes
  · rw [Fleet.storage_withStorage] at howes
    split at howes
    · rename_i hsame
      obtain ⟨rfl, rfl⟩ := hsame
      rcases (localWrite_spec faults t.target (h.clean t.target (o.group d))
          (h.storable _ hr)).2 with ⟨e, herror⟩ | ⟨_, hadded⟩
      · rwa [herror] at howes
      · exact ((hadded.owes b).mp howes).resolve_right nofun
    · exact howes
  · exact howes

theorem Fan.fleet_serve (ht : s.tasks[i]? = some t) (hphase : t.phase = .sent) (faults : Faults) :
    (s.step d o (.task i (.serve faults))).fleet = (t.serve d o s.fleet faults).2 := by
  simp only [step, ht, FanTask.step, hphase]

theorem step_falls (h : Consistent f) (hr : o.record ∈ f.issued) {a : TaskAction}
    (hlocal : t.localSound d o f a = true) (hhint : t.hintSound a = true) :
    FallStep d o (t.step d o f a).2 t (t.step d o f a).1 := by
  cases a with
  | serve faults =>
    apply FallStep.keeps
    unfold FanTask.step
    dsimp only
    split
    · exact serve_keeps hlocal
    · split
      · exact .inl rfl
      · exact serve_keeps hlocal
  | answer =>
    apply FallStep.keeps
    unfold FanTask.step
    dsimp only
    split
    · split
      · exact .inr ⟨_, rfl⟩
      · exact .inl rfl
    · exact .inl rfl
  | fail e =>
    unfold FanTask.step
    dsimp only
    split
    · rename_i owner _ hintent
      split
      · exact .keeps (.inl rfl)
      · refine ⟨nofun, ?_⟩
        intro e' _
        rw [FanTask.hintSound, hintent] at hhint
        exact .inr (.inl hhint)
    · rename_i _ hintent
      split
      · exact .keeps (.inl rfl)
      · exact ⟨fun _ _ => .inr hintent, nofun⟩
    · exact .keeps (.inl rfl)
  | fallback faults =>
    unfold FanTask.step
    dsimp only
    split
    · rename_i e hfalling
      refine ⟨nofun, ?_⟩
      intro e' _
      rw [FanTask.localSound] at hlocal
      cases hcase : oblige faults o.node o.record [t.target] (f.storage o.node (o.group d)) with
      | mk result g =>
        rw [hcase] at hlocal
        cases result with
        | error error => cases hlocal
        | ok obligations =>
          obtain ⟨_, hstored, howed⟩ := oblige_owed h hr faults o.node t.target hcase
          exact .inr (.inr ⟨⟨e, hfalling⟩, hstored, howed⟩)
    · exact .keeps (.inl rfl)

structure FellBack (d : Deployment) (o : Order) (s : Fan) (acts : List FanAction) (t : FanTask) :
    Prop where
  falling : ∀ e, t.phase = .falling e → t.intent = none
  failed : ∀ e, t.phase = .done (.error e) → t.served = true ∨ t.intent = none ∧
    s.Sometime d o acts fun f => o.StoredAt d o.node f ∧
      (t.target ≠ o.node → o.OwedAt d o.node t.target f)

theorem fellBack_run (h : Coordinating o s) (hfresh : ∀ t ∈ s.tasks, t.phase = .sent) (acts : List FanAction)
    (ht : (s.run d o acts).tasks[i]? = some t) :
    ∃ t₀, s.tasks[i]? = some t₀ ∧ (Along (step d o) (localSound d o · ·) s acts →
      Along (step d o) (hintSound · ·) s acts → FellBack d o s acts t) := by
  refine follow (Q := fun acts _ t => Along (step d o) (localSound d o · ·) s acts →
    Along (step d o) (hintSound · ·) s acts → FellBack d o s acts t) ?_ ?_ ?_ acts ht
  · intro t ht _ _
    refine ⟨?_, ?_⟩
    · rw [hfresh t ht]
      nofun
    · rw [hfresh t ht]
      nofun
  · intro acts a _ t hbefore hl hh
    obtain ⟨hfalling, hfailed⟩ := hbefore (along_append.mp hl).1 (along_append.mp hh).1
    refine ⟨hfalling, ?_⟩
    intro e he
    refine (hfailed e he).imp id ?_
    rintro ⟨hintent, hsome⟩
    exact ⟨hintent, hsome.mono (prefix_append _ _) fun _ => id⟩
  · intro acts i b _ t ht hfleet hbefore hl hh
    obtain ⟨hl, hlocal, _⟩ := along_append.mp hl
    obtain ⟨hh, hhint, _⟩ := along_append.mp hh
    obtain ⟨hfalling, hfailed⟩ := hbefore hl hh
    have hcoord := h.run (d := d) acts
    have hstep := step_spec (d := d) hcoord.consistent hcoord.issued t b
    have hfalls := step_falls hcoord.consistent hcoord.issued ((Option.all_eq_true _ _).mp hlocal t ht)
      ((Option.all_eq_true _ _).mp hhint t ht)
    refine ⟨?_, ?_⟩
    · intro e he
      rw [hstep.intent]
      exact (hfalls.falling e he).elim (hfalling e) id
    · intro e he
      rw [hstep.intent, hstep.target]
      rcases hfalls.failed e he with hbefore | hserved | ⟨⟨e', he'⟩, howed⟩
      · rcases hfailed e hbefore with hserved | ⟨hintent, hsome⟩
        · exact .inl (hstep.kept hserved)
        · exact .inr ⟨hintent, hsome.mono (prefix_append _ _) fun _ => id⟩
      · exact .inl (hstep.kept hserved)
      · rw [← hfleet] at howed
        exact .inr ⟨hfalling e' he', Sometime.now howed⟩

theorem Coordinating.adds_step (h : Coordinating o s) {a : FanAction}
    (ha : ∀ b, a = .other b → b.discards = false) : s.fleet.Adds (s.step d o a).fleet := by
  cases a with
  | other b => exact h.consistent.adds (ha b rfl)
  | task i b =>
    unfold Fan.step
    dsimp only
    split
    · rename_i t _
      exact (step_spec h.consistent h.issued t b).grows.adds
    · exact .same fun _ _ => rfl

theorem Coordinating.lasts {P : Fleet → Prop} (hP : ∀ f f', Consistent f → f.Adds f' → P f → P f')
    (h : Coordinating o s) (hacts : ∀ b, .other b ∈ acts → b.discards = false) (hs : P s.fleet) :
    P (s.run d o acts).fleet := by
  induction acts generalizing s with
  | nil => exact hs
  | cons a acts ih =>
    refine ih (h.step a) (fun b hb => hacts b (mem_cons_of_mem _ hb)) ?_
    refine hP _ _ h.consistent (h.adds_step ?_) hs
    intro b hb
    exact hacts b (hb ▸ mem_cons_self ..)

theorem Order.CoveredAt.adds {owner : String} (hc : Consistent f) (ha : f.Adds f')
    (h : o.CoveredAt d owner f) : o.CoveredAt d owner f' := by
  rcases h with hstored | ⟨holder, hstored, howed⟩
  · exact .inl (hstored.adds hc ha)
  · exact .inr ⟨holder, hstored.adds hc ha, howed.adds ha⟩

variable {node : String} {list : PreferenceList} {addr : Address} {value : Bytes} {tombstone : Bool}
  {quorum : Int} {fan : Fan}

omit [Blake2b] in
theorem covered_of_backed (hplaced : WellPlaced list.preferences) (he : e ∈ list.preferences)
    (htarget : writeTarget e = some target) (h : Backed d o (.create target) f) : o.CoveredAt d e.nodeId f := by
  rcases mem_writeTarget htarget with ⟨hhandoff, hintent⟩ | ⟨_, _, rfl⟩
  · exact .inr ⟨target.1, h.stored, h.owed e.nodeId hintent
      fun heq => hplaced.apart e he e he target.1 hhandoff heq.symm⟩
  · exact .inl h.stored

omit [Blake2b] in
theorem ended_done (h : s.ended i = true) : ∃ t result, s.tasks[i]? = some t ∧ t.phase = .done result := by
  obtain ⟨t, ht, hphase⟩ := (Option.any_eq_true _ _).mp h
  cases hcase : t.phase with
  | done result => exact ⟨t, result, ht, hcase⟩
  | sent => rw [hcase] at hphase; cases hphase
  | falling e => rw [hcase] at hphase; cases hphase

theorem Begun.covers (h : Begun f node list addr o fan) (hplaced : WellPlaced list.preferences)
    (hlocal : Along (step d o) (localSound d o · ·) fan acts) (hhint : Along (step d o) (hintSound · ·) fan acts)
    (hended : ∀ i < fan.tasks.length, (fan.run d o acts).ended i = true) (he : e ∈ list.preferences)
    (htarget : writeTarget e = some target) : fan.Sometime d o acts (o.CoveredAt d e.nodeId) := by
  obtain ⟨i, hi⟩ := List.mem_iff_getElem?.mp (List.mem_filterMap.mpr ⟨e, he, htarget⟩)
  have htask : fan.tasks[i]? = some (.create target) := by
    rw [h.tasks, List.getElem?_map, writeTargets, hi]
    rfl
  obtain ⟨t, result, ht, hphase⟩ := ended_done (hended i (List.getElem?_eq_some_iff.mp htask).1)
  obtain ⟨t₀, ht₀, hfollowed⟩ := followed_run h.coordinating h.fresh acts ht
  obtain rfl : FanTask.create target = t₀ := Option.some.inj (htask.symm.trans ht₀)
  have hserved (hs : t.served = true) : fan.Sometime d o acts (o.CoveredAt d e.nodeId) :=
    (hfollowed.backed hs).mono (List.prefix_refl _) fun _ => covered_of_backed hplaced he htarget
  cases result with
  | ok r => exact hserved (hfollowed.answered r hphase).2
  | error error =>
    obtain ⟨_, _, hfell⟩ := fellBack_run h.coordinating (fun t ht => (h.fresh t ht).2) acts ht
    rcases (hfell hlocal hhint).failed error hphase with hs | ⟨hintent, hsome⟩
    · exact hserved hs
    · refine hsome.mono (List.prefix_refl _) ?_
      rintro f' ⟨hstored, howed⟩
      rw [hfollowed.target] at howed
      rw [hfollowed.intent] at hintent
      rcases mem_writeTarget htarget with ⟨_, hhint⟩ | ⟨_, _, rfl⟩
      · cases hhint.symm.trans hintent
      · rcases eq_or_ne e.nodeId o.node with heq | hne
        · exact .inl (heq ▸ hstored)
        · exact .inr ⟨o.node, hstored, howed hne⟩

end Coverage

namespace Sample

def ownedWith (e : Preference) : PreferenceList := ⟨⟨0, 0, ⟨5, "b"⟩⟩, [⟨"b", true, none, true⟩, e]⟩

def bRecord : Record := ⟨⟨⟨0, ⟨[1], [2]⟩, ⟨9, 0, "b", size_b⟩⟩, ⟨.live, {}⟩⟩, ⟨[3], 1, size_three⟩⟩

def bPut (e : Preference) : Fan where
  fleet := (sites.run deployment [.wall "b" 9]).register "b"
    (writeRecord ((sites.run deployment [.wall "b" 9]).sites "b").clock 9 ⟨[1], [2]⟩ [3] 0 false 1)
  tasks := (writeTargets (ownedWith e).preferences).map FanTask.create

def bBegins (e : Preference) : Prop :=
  beginWrite (sites.run deployment [.wall "b" 9]) "b" (ownedWith e) ⟨[1], [2]⟩ [3] false 1 =
    .ok (⟨"b", bRecord⟩, bPut e)

def bServed (e : Preference) : Fan := (bPut e).run deployment ⟨"b", bRecord⟩ [.task 0 (.serve calm)]

theorem bServed_uncovered {e : Preference} (hbegins : bBegins e) {f : Fleet} (hf : f = (bServed e).fleet)
    (hnone : bRecord.key ∉ (f.storage "a" 0).held) : ¬ Order.CoveredAt deployment ⟨"b", bRecord⟩ "a" f := by
  rintro (hstored | ⟨holder, _, b, howes, _⟩)
  · exact hnone hstored
  · have hbegun := begun_of_beginWrite (sites_initial.consistent.run (d := deployment) [.wall "b" 9]) hbegins
    have hserve := fleet_serve (d := deployment) (o := ⟨"b", bRecord⟩) (s := bPut e)
      (i := 0) (t := .create ("b", none)) rfl rfl calm
    rw [hf, bServed, run, foldl_cons, foldl_nil, hserve] at howes
    have hput := serve_owes hbegun.coordinating.consistent hbegun.coordinating.issued rfl calm howes
    have hwall := sites.storage_withWall "b" holder 9
    rw [hbegun.storage, Fleet.run, foldl_cons, foldl_nil, Fleet.step, hwall, sites_initial.groups] at hput
    cases hput.2

def joiningOwner : Preference := ⟨"a", false, none, false⟩

def suspectedOwner : Preference := ⟨"a", true, some "c", true⟩

def third : Member := ⟨"c", "c:1", 1, .ready, ["0e"]⟩

def standby : Topology where
  ring := .make (second.positions ++ other.positions ++ third.positions)
  registry := OrderedMap.insert (membersOf second other).registry "c" third
  keyed := (membersOf second other).keyed.insert third

def hintLost : Fan := (bServed suspectedOwner).run deployment ⟨"b", bRecord⟩ [.task 1 (.fail (.timeout "c"))]

def timedOut : List FanAction :=
  [.task 1 (.serve calm), .task 0 (.fail (.timeout "b")), .task 0 (.fallback calm)]

end Sample

end Tourillon
