import Tourillon.AntiEntropy.ViewTracker

namespace Tourillon

open Machine TopologyManager

structure Performed (s s' : TrackerState) : Prop where
  stage : s'.stage = s.stage
  view : s'.view = s.view
  stale : s'.stale = s.stale
  built : s'.built = s.built
  generation : s.manager.generation ≤ s'.manager.generation
  notifying : s.notifying ≤ s'.notifying
  pending : s.manager.generation < s'.manager.generation → 0 < s'.notifying
  changes : (s'.changes = s.changes ∧ s'.topology.ownership = s.topology.ownership) ∨
    (s'.changes = s.changes + 1 ∧ s.manager.generation < s'.manager.generation)

structure Awaiting (s : TrackerState) (g : Nat) : Prop where
  bound : g ≤ s.manager.generation
  missed : s.built < s.changes → g < s.manager.generation

def Reflects (s : TrackerState) (t : Topology) : Prop :=
  s.built = s.changes → t.ownership = s.topology.ownership

section Calls

variable {s s' : TrackerState} {g : Nat} {t : Topology}

theorem Performed.grows (h : Performed s s') : s.changes ≤ s'.changes := by
  rcases h.changes with ⟨hsame, _⟩ | ⟨hmore, _⟩ <;> omega

theorem Awaiting.performed (h : Awaiting s g) (hs : Performed s s') : Awaiting s' g := by
  refine ⟨h.bound.trans hs.generation, ?_⟩
  intro hlt
  have hbound := h.bound
  have hgeneration := hs.generation
  rw [hs.built] at hlt
  rcases hs.changes with ⟨hsame, _⟩ | ⟨_, hless⟩
  · have hmissed := h.missed (hsame ▸ hlt)
    omega
  · omega

theorem Reflects.performed (h : Reflects s t) (hbuilt : s.built ≤ s.changes) (hs : Performed s s') :
    Reflects s' t := by
  intro heq
  rw [hs.built] at heq
  rcases hs.changes with ⟨hsame, hownership⟩ | ⟨hmore, _⟩
  · rw [hownership]
    exact h (heq.trans hsame)
  · omega

end Calls

section Tracking

variable [Digests] {view : ReplicaView}

theorem TrackerState.performed {s : TrackerState} {c : TopologyCall} (hsep : c.Separated s.manager)
    {notified : Bool} (h : c.notifies s.manager = .ok notified) : Performed s (s.perform c) := by
  have hannounced := announced_call hsep h
  have hgeneration : (s.perform c).manager.generation =
      if notified then s.manager.generation + 1 else s.manager.generation := hannounced.generation
  have hnotifying : (s.perform c).notifying = if notified then s.notifying + 1 else s.notifying := by
    show (if c.notifies s.manager = .ok true then s.notifying + 1 else s.notifying) = _
    rw [h]
    cases notified with
    | false => rfl
    | true => rfl
  cases notified with
  | false =>
    refine ⟨rfl, rfl, rfl, rfl, hgeneration.ge, hnotifying.ge, fun hlt => ?_, .inl ⟨?_, ?_⟩⟩
    · exact absurd hgeneration hlt.ne'
    · exact if_pos (hannounced.ownership rfl)
    · exact hannounced.ownership rfl
  | true =>
    have hless : s.manager.generation < (s.perform c).manager.generation := by
      rw [hgeneration]
      exact Nat.lt_succ_self _
    refine ⟨rfl, rfl, rfl, rfl, hless.le, ?_, fun _ => ?_, ?_⟩
    · rw [hnotifying]
      exact Nat.le_succ _
    · rw [hnotifying]
      exact Nat.succ_pos _
    · by_cases hsame : (c.run s.manager).ownership = s.manager.ownership
      · exact .inl ⟨if_pos hsame, hsame⟩
      · exact .inr ⟨if_neg hsame, hless⟩

structure Published (k : ViewTracker) (s : TrackerState) : Prop where
  fresh : s.stale = false
  built : ∃ t serial, t.ring.serial = .ok serial ∧ Reflects s t ∧
    s.view = some (buildView t serial k.partitioner k.space k.rf k.nodeId)

def Upheld (k : ViewTracker) (s : TrackerState) : TrackerStage → Prop
  | .idle => s.view = none
  | .reading g => s.view = none ∧ g ≤ s.manager.generation
  | .building g t => s.view = none ∧ Awaiting s g ∧ Reflects s t
  | .checking g => Published k s ∧ Awaiting s g
  | .parked g => Published k s ∧ Awaiting s g ∧ (g < s.manager.generation → 0 < s.notifying)
  | .settling g => s.view = none ∧ g ≤ s.manager.generation

structure Attentive (k : ViewTracker) (s : TrackerState) : Prop where
  built : s.built ≤ s.changes
  upheld : Upheld k s s.stage

variable {k : ViewTracker} {s s' : TrackerState}

theorem Published.performed (h : Published k s) (hbuilt : s.built ≤ s.changes) (hs : Performed s s') :
    Published k s' := by
  obtain ⟨t, serial, hserial, hreflects, hview⟩ := h.built
  exact ⟨hs.stale.trans h.fresh, t, serial, hserial, hreflects.performed hbuilt hs, hs.view.trans hview⟩

namespace Attentive

theorem performed (h : Attentive k s) (hs : Performed s s') : Attentive k s' := by
  refine ⟨hs.built.trans_le (h.built.trans hs.grows), ?_⟩
  rw [hs.stage]
  have hupheld := h.upheld
  cases hstage : s.stage with
  | idle =>
    rw [hstage] at hupheld
    exact hs.view.trans hupheld
  | reading g =>
    rw [hstage] at hupheld
    exact ⟨hs.view.trans hupheld.1, hupheld.2.trans hs.generation⟩
  | building g t =>
    rw [hstage] at hupheld
    obtain ⟨hview, hawaiting, hreflects⟩ := hupheld
    exact ⟨hs.view.trans hview, hawaiting.performed hs, hreflects.performed h.built hs⟩
  | checking g =>
    rw [hstage] at hupheld
    exact ⟨hupheld.1.performed h.built hs, hupheld.2.performed hs⟩
  | parked g =>
    rw [hstage] at hupheld
    obtain ⟨hpublished, hawaiting, hpending⟩ := hupheld
    refine ⟨hpublished.performed h.built hs, hawaiting.performed hs, ?_⟩
    intro hlt
    rcases hs.generation.eq_or_lt with heq | hless
    · exact (hpending (heq ▸ hlt)).trans_le hs.notifying
    · exact hs.pending hless
  | settling g =>
    rw [hstage] at hupheld
    exact ⟨hs.view.trans hupheld.1, hupheld.2.trans hs.generation⟩

theorem notify (h : Attentive k s) : Attentive k (k.step s .notify) := by
  show Attentive k (if s.notifying = 0 then s else { s.wakeWaiters with notifying := s.notifying - 1 })
  split
  · exact h
  · obtain ⟨hbuilt, hupheld⟩ := h
    rw [TrackerState.wakeWaiters]
    cases hstage : s.stage with
    | parked g =>
      rw [hstage] at hupheld
      obtain ⟨⟨hfresh, hview⟩, ⟨hbound, hmissed⟩, _⟩ := hupheld
      exact ⟨hbuilt, ⟨hfresh, hview⟩, hbound, hmissed⟩
    | checking g =>
      rw [hstage] at hupheld
      obtain ⟨⟨hfresh, hview⟩, hbound, hmissed⟩ := hupheld
      refine ⟨hbuilt, ?_⟩
      rw [hstage]
      exact ⟨⟨hfresh, hview⟩, hbound, hmissed⟩
    | building g t =>
      rw [hstage] at hupheld
      obtain ⟨hview, ⟨hbound, hmissed⟩, hreflects⟩ := hupheld
      refine ⟨hbuilt, ?_⟩
      rw [hstage]
      exact ⟨hview, ⟨hbound, hmissed⟩, hreflects⟩
    | idle =>
      rw [hstage] at hupheld
      refine ⟨hbuilt, ?_⟩
      rw [hstage]
      exact hupheld
    | reading g =>
      rw [hstage] at hupheld
      refine ⟨hbuilt, ?_⟩
      rw [hstage]
      exact hupheld
    | settling g =>
      rw [hstage] at hupheld
      refine ⟨hbuilt, ?_⟩
      rw [hstage]
      exact hupheld

theorem publish {g : Nat} {t : Topology} (hbuilt : s.built ≤ s.changes)
    (h : Upheld k s (.building g t)) : Attentive k (k.publish s g t) := by
  obtain ⟨hview, ⟨hbound, hmissed⟩, hreflects⟩ := h
  rw [ViewTracker.publish]
  cases hserial : t.ring.serial with
  | error e => exact ⟨hbuilt, hview⟩
  | ok serial => exact ⟨hbuilt, ⟨rfl, t, serial, hserial, hreflects, rfl⟩, hbound, hmissed⟩

theorem check {g : Nat} (h : Attentive k s) (hstage : s.stage = .checking g) : Attentive k (k.step s .check) := by
  obtain ⟨hbuilt, hupheld⟩ := h
  rw [ViewTracker.step, hstage]
  rw [hstage] at hupheld
  obtain ⟨⟨hfresh, hview⟩, hbound, hmissed⟩ := hupheld
  dsimp only
  split
  · rename_i heq
    exact ⟨hbuilt, ⟨hfresh, hview⟩, ⟨hbound, hmissed⟩, fun hlt => absurd heq hlt.ne'⟩
  · exact ⟨hbuilt, rfl, le_rfl⟩

end Attentive

def TrackerState.Allows (s : TrackerState) : TrackerAction → Prop
  | .call c => (∃ notified, c.notifies s.manager = .ok notified) ∧ c.Separated s.manager
  | _ => True

theorem Attentive.step (h : Attentive k s) {a : TrackerAction} (ha : s.Allows a) : Attentive k (k.step s a) := by
  obtain ⟨hbuilt, hupheld⟩ := id h
  cases a with
  | call c =>
    obtain ⟨⟨notified, hnotified⟩, hsep⟩ := ha
    exact h.performed (TrackerState.performed hsep hnotified)
  | notify => exact h.notify
  | start =>
    rw [ViewTracker.step]
    split
    · rename_i hstage
      rw [hstage] at hupheld
      exact ⟨hbuilt, hupheld, le_rfl⟩
    · exact h
  | snapshot =>
    rw [ViewTracker.step]
    split
    · rename_i g hstage
      rw [hstage] at hupheld
      exact ⟨le_rfl, hupheld.1, ⟨hupheld.2, fun hlt => absurd hlt (lt_irrefl _)⟩, fun _ => rfl⟩
    · exact h
  | publish =>
    rw [ViewTracker.step]
    split
    · rename_i g t hstage
      rw [hstage] at hupheld
      exact publish hbuilt hupheld
    · exact h
  | check =>
    cases hstage : s.stage with
    | checking g => exact h.check hstage
    | _ =>
      rw [ViewTracker.step, hstage]
      exact h
  | extend =>
    rw [ViewTracker.step]
    split
    · rename_i g hstage
      rw [hstage] at hupheld
      exact ⟨hbuilt, hupheld.1, le_rfl⟩
    · exact h
  | rebuild =>
    rw [ViewTracker.step]
    split
    · rename_i g hstage
      rw [hstage] at hupheld
      exact ⟨hbuilt, hupheld.1, le_rfl⟩
    · exact h

theorem attentive_run {actions : List TrackerAction}
    (h : Along k.step TrackerState.Allows .initial actions) : Attentive k (k.run actions) :=
  h.invariant (fun _ _ ha hs => hs.step ha) ⟨le_rfl, rfl⟩

def TrackerStage.waiting : TrackerStage → Option Nat
  | .checking g => some g
  | .parked g => some g
  | _ => none

structure Caught (k : ViewTracker) (s : TrackerState) : Prop where
  past : ∃ g, s.stage.waiting = some g ∧ g < s.manager.generation
  checking : ∀ g, s.stage = .checking g →
    (k.step s .check).view = none ∧ (k.step s .check).stale = true
  parked : ∀ g, s.stage = .parked g → 0 < s.notifying ∧ (k.step s .notify).stage = .checking g ∧
    (k.step (k.step s .notify) .check).view = none ∧ (k.step (k.step s .notify) .check).stale = true

theorem Attentive.waiting (h : Attentive k s) (hview : s.view = some view) :
    ∃ g, s.stage.waiting = some g ∧ Awaiting s g ∧ Published k s := by
  have hupheld := h.upheld
  cases hstage : s.stage with
  | checking g =>
    rw [hstage] at hupheld
    exact ⟨g, rfl, hupheld.2, hupheld.1⟩
  | parked g =>
    rw [hstage] at hupheld
    exact ⟨g, rfl, hupheld.2.1, hupheld.1⟩
  | idle =>
    rw [hstage] at hupheld
    cases hview.symm.trans hupheld
  | _ =>
    rw [hstage] at hupheld
    cases hview.symm.trans hupheld.1

theorem ViewTracker.check_overtaken {g : Nat} (hstage : s.stage = .checking g) (hless : g < s.manager.generation) :
    (k.step s .check).view = none ∧ (k.step s .check).stale = true := by
  rw [ViewTracker.step, hstage]
  dsimp only
  rw [if_neg hless.ne']
  exact ⟨rfl, rfl⟩

theorem Attentive.caught (h : Attentive k s) (hview : s.view = some view) (hlost : s.built < s.changes) :
    Caught k s := by
  obtain ⟨g, hwaiting, hawaiting, _⟩ := h.waiting hview
  have hless := hawaiting.missed hlost
  refine ⟨⟨g, hwaiting, hless⟩, ?_, ?_⟩
  · intro g' hstage
    rw [hstage] at hwaiting
    obtain rfl : g' = g := Option.some.inj hwaiting
    exact ViewTracker.check_overtaken hstage hless
  · intro g' hstage
    rw [hstage] at hwaiting
    obtain rfl : g' = g := Option.some.inj hwaiting
    have hupheld := h.upheld
    rw [hstage] at hupheld
    have hpending := hupheld.2.2 hless
    have hwoken : k.step s .notify = { s with stage := .checking g', notifying := s.notifying - 1 } := by
      rw [ViewTracker.step, if_neg hpending.ne', TrackerState.wakeWaiters, hstage]
    rw [hwoken]
    exact ⟨hpending, rfl, ViewTracker.check_overtaken rfl hless⟩

theorem Attentive.current (h : Attentive k s) {g : Nat} (hview : s.view = some view)
    (hstage : s.stage = .parked g) (hquiet : s.notifying = 0) : ∃ serial, s.manager.ring.serial = .ok serial ∧
      view = buildView s.topology serial k.partitioner k.space k.rf k.nodeId := by
  have hupheld := h.upheld
  rw [hstage] at hupheld
  obtain ⟨⟨_, t, serial, hserial, hreflects, hbuilt⟩, ⟨hbound, hmissed⟩, hpending⟩ := hupheld
  have hcaught : s.built = s.changes := by
    by_contra hne
    have := hpending (hmissed (lt_of_le_of_ne h.built hne))
    omega
  have hsame := hreflects hcaught
  refine ⟨serial, ?_, ?_⟩
  · rw [← hserial]
    exact congrArg Ring.serial (Ring.eq_of_vnodes (Prod.mk.inj hsame).1.symm)
  · rw [← buildView_congr hsame]
    exact Option.some.inj (hview.symm.trans hbuilt)

theorem no_change_escapes (k : ViewTracker) {actions : List TrackerAction}
    (h : Along k.step TrackerState.Allows .initial actions) : (∀ c, (k.run actions).Allows (.call c) →
      (c.run (k.run actions).manager).ownership ≠ (k.run actions).manager.ownership →
      (k.run actions).manager.generation < (c.run (k.run actions).manager).generation) ∧
    (∀ view, (k.run actions).view = some view → (k.run actions).stale = false ∧
      ((k.run actions).built < (k.run actions).changes → Caught k (k.run actions)) ∧
      (∀ g, (k.run actions).stage = .parked g → (k.run actions).notifying = 0 →
        ∃ serial, (k.run actions).manager.ring.serial = .ok serial ∧
          view = buildView (k.run actions).topology serial k.partitioner k.space k.rf k.nodeId)) := by
  have hrun := attentive_run h
  constructor
  · intro c ⟨⟨notified, hnotified⟩, hsep⟩ hne
    have hannounced := announced_call hsep hnotified
    cases notified with
    | false => exact absurd (hannounced.ownership rfl) hne
    | true =>
      rw [hannounced.generation]
      exact Nat.lt_succ_self _
  · intro view hview
    obtain ⟨_, _, _, hpublished⟩ := hrun.waiting hview
    exact ⟨hpublished.fresh, hrun.caught hview, fun g hstage hquiet => hrun.current hview hstage hquiet⟩

end Tracking

namespace Sample

def host : Member := ⟨"a", "a:1", 1, .ready, ["0a"]⟩

def hosted : TopologyManager where
  registry := (∅ : MemberRegistry).insert "a" host
  ring := .make [⟨10, "a"⟩]
  generation := 1
  fingerprint := none

theorem host_derived : derivedRing .empty host = .ok hosted.ring := by
  have hvnodes : host.vnodes = .ok [⟨10, "a"⟩] := by decide +kernel
  exact derivedRing_ok (by decide) hvnodes (by decide) (by decide)

theorem host_applied : applyMember host .start = (.ok true, hosted) :=
  applyMember_ok ⟨nofun⟩ host_derived ⟨_, _, rfl, rfl, by decide +kernel⟩

theorem host_separated : Along applied Separated start [host] := by
  refine ⟨?_, trivial⟩
  intro serial hnext hstart
  have hring : start.nextRing host = hosted.ring := by
    show (derivedRing .empty host).toOption.getD _ = _
    rw [host_derived]
    rfl
  rw [hring] at hnext
  have hdiffer : hosted.ring.serial ≠ start.ring.serial := by decide +kernel
  exact absurd (hnext.trans hstart.symm) hdiffer

def viewTracker : ViewTracker := ⟨"a", ⟨2, 1, Nat.one_lt_two⟩, ⟨8, fun encoded => encoded.length % 256⟩, 2⟩

def overtaken : List TrackerAction := [.start, .snapshot, .publish, .check, .call (.applyMember host)]

theorem overtaken_allowed : Along viewTracker.step TrackerState.Allows .initial overtaken := by
  refine ⟨trivial, trivial, trivial, trivial, ⟨⟨true, ?_⟩, host_separated⟩, trivial⟩
  exact congrArg Prod.fst host_applied

theorem overtaken_caught : Caught viewTracker (viewTracker.run overtaken) := by
  refine ((no_change_escapes viewTracker overtaken_allowed).2 _ rfl).2.1 ?_
  have hchanges : (viewTracker.run overtaken).changes = 1 := by
    refine if_neg ?_
    show (applyMember host .start).2.ownership ≠ _
    rw [host_applied]
    decide
  rw [hchanges]
  exact Nat.zero_lt_one

end Sample

end Tourillon
