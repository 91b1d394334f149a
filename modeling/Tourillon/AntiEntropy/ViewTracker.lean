import Tourillon.AntiEntropy.BuildView
import Tourillon.Library.Machine

namespace Tourillon

open Prog Machine TopologyManager Topology

variable {t t' : Topology}

def Ring.ownership (r : Ring) (registry : MemberRegistry) : List VNode × List (Option MemberPhase) :=
  (r.vnodes, r.vnodes.map fun v => (registry.get v.nodeId).map Member.phase)

def TopologyManager.ownership (t : TopologyManager) : List VNode × List (Option MemberPhase) :=
  t.ring.ownership t.registry

def Topology.ownership (t : Topology) : List VNode × List (Option MemberPhase) := t.ring.ownership t.registry

structure ViewTracker where
  nodeId : String
  partitioner : Partitioner
  space : HashSpace
  rf : Nat

inductive TrackerStage where
  | idle
  | reading (generation : Nat)
  | building (generation : Nat) (topology : Topology)
  | checking (generation : Nat)
  | parked (generation : Nat)
  | settling (generation : Nat)

structure TrackerState where
  manager : TopologyManager
  keyed : manager.registry.Keyed
  notifying : Nat
  stage : TrackerStage
  view : Option ReplicaView
  stale : Bool
  changes : Nat
  built : Nat

inductive TrackerAction where
  | call (c : TopologyCall)
  | notify
  | start
  | snapshot
  | publish
  | check
  | extend
  | rebuild

namespace TrackerState

def initial : TrackerState where
  manager := .start
  keyed := nofun
  notifying := 0
  stage := .idle
  view := none
  stale := false
  changes := 0
  built := 0

def topology (s : TrackerState) : Topology := ⟨s.manager.ring, s.manager.registry, s.keyed⟩

def wakeWaiters (s : TrackerState) : TrackerState :=
  match s.stage with
  | .parked generation => { s with stage := .checking generation }
  | _ => s

def invalidate (s : TrackerState) : TrackerState := { s with view := none, stale := true }

end TrackerState

section Step

variable [Digests]

def TopologyCall.notifies (t : TopologyManager) : TopologyCall → Except PyError Bool
  | .applyMember m => (TopologyManager.applyMember m t).1
  | .mergeRegistry members => (TopologyManager.mergeRegistry members t).1.map fun accepted => accepted ≠ 0
  | .memberFingerprint => .ok false

def TrackerState.perform (s : TrackerState) (c : TopologyCall) : TrackerState :=
  { s with
    manager := c.run s.manager
    keyed := keyed_invariant.run c s.keyed
    notifying := if c.notifies s.manager = .ok true then s.notifying + 1 else s.notifying
    changes := if (c.run s.manager).ownership = s.manager.ownership then s.changes else s.changes + 1 }

namespace ViewTracker

variable (k : ViewTracker)

def publish (s : TrackerState) (generation : Nat) (topology : Topology) : TrackerState :=
  match topology.ring.serial with
  | .error _ => { s with stage := .idle }
  | .ok serial =>
    { s with
      view := some (buildView topology serial k.partitioner k.space k.rf k.nodeId)
      stale := false
      stage := .checking generation }

def step (s : TrackerState) : TrackerAction → TrackerState
  | .call c => s.perform c
  | .notify => if s.notifying = 0 then s else { s.wakeWaiters with notifying := s.notifying - 1 }
  | .start =>
    match s.stage with
    | .idle => { s with stage := .reading s.manager.generation }
    | _ => s
  | .snapshot =>
    match s.stage with
    | .reading generation => { s with stage := .building generation s.topology, built := s.changes }
    | _ => s
  | .publish =>
    match s.stage with
    | .building generation topology => k.publish s generation topology
    | _ => s
  | .check =>
    match s.stage with
    | .checking generation =>
      if s.manager.generation = generation then { s with stage := .parked generation }
      else { s.invalidate with stage := .settling s.manager.generation }
    | _ => s
  | .extend =>
    match s.stage with
    | .settling _ => { s with stage := .settling s.manager.generation }
    | _ => s
  | .rebuild =>
    match s.stage with
    | .settling _ => { s with stage := .reading s.manager.generation }
    | _ => s

def run (actions : List TrackerAction) : TrackerState := actions.foldl k.step .initial

end ViewTracker

end Step

theorem Topology.phases_congr {t t' : Topology} (h : t.ownership = t'.ownership) : t.phases = t'.phases := by
  obtain ⟨hvnodes, hphases⟩ := Prod.mk.inj h
  rw [← hvnodes] at hphases
  have hsame (v : VNode) (hv : v ∈ t.ring.vnodes) (found : OrderedMap String MemberPhase) :
      t.notePhase found v = t'.notePhase found v := by
    have hphase := List.map_inj_left.mp hphases v hv
    rw [notePhase, notePhase]
    cases hget : t.registry.get v.nodeId with
    | none =>
      rw [hget] at hphase
      rw [Option.map_eq_none_iff.mp hphase.symm]
    | some m =>
      rw [hget] at hphase
      obtain ⟨m', hm', hp⟩ := Option.map_eq_some_iff.mp hphase.symm
      rw [hm']
      dsimp only
      rw [hp]
  rw [phases, phases, ← hvnodes]
  exact List.foldl_ext _ _ _ fun found v hv => hsame v hv found

theorem buildView_congr {t t' : Topology} (h : t.ownership = t'.ownership) (serial : String)
    (p : Partitioner) (space : HashSpace) (rf : Nat) (node : String) :
    buildView t serial p space rf node = buildView t' serial p space rf node := by
  have hring : t.ring = t'.ring := Ring.eq_of_vnodes (Prod.mk.inj h).1
  have hphases := phases_congr h
  have hwalks : t.walks rf = t'.walks rf := by
    funext start
    simp only [walks, Topology.targets, serving, known, hphases, hring]
  have hposition : t.position p space = t'.position p space := by
    funext pid
    simp only [position, hring]
  simp only [buildView, hring, hwalks, hposition]

section Changes

variable [Digests] {t : TopologyManager} {m : Member} {members : List Member}

theorem TopologyManager.ownership_of_unflagged (hsep : t.Separated m) (h : (apply m t).1 = .ok false) :
    (apply m t).2.ownership = t.ownership := by
  rcases apply_cases m t with ⟨_, hrun⟩ | ⟨_, hrun⟩
  · rw [hrun] at h ⊢
    rcases updateRing_cases (t.registry.get m.nodeId) m
        { t with registry := t.registry.insert m.nodeId m, fingerprint := none } with
      ⟨e, _, hupdate⟩ | ⟨ring, hring, ⟨e, _, hupdate⟩ | ⟨flag, hserials, hupdate⟩⟩
    · rw [hupdate] at h
      cases h
    · rw [hupdate] at h
      cases h
    · rw [hupdate] at h ⊢
      obtain rfl : flag = false := Except.ok.inj h
      obtain ⟨serial, previous, hnew, hold, hflag⟩ := hserials.found
      have hnext : t.nextRing m = ring := by
        rw [nextRing]
        dsimp only at hring
        rw [hring]
        rfl
      split at hflag
      · rename_i heq
        subst heq
        have hsame : ring = t.ring := hnext ▸ hsep serial (hnext ▸ hnew) hold
        show (ring.vnodes, _) = (t.ring.vnodes, _)
        dsimp only
        rw [hsame]
        congr 1
        refine List.map_congr_left fun v hv => ?_
        by_cases hid : v.nodeId = m.nodeId
        · rw [hid, OrderedMap.get_insert_self]
          have hv' : v ∈ (t.nextRing m).vnodes := by
            rw [hnext, hsame]
            exact hv
          rcases nextRing_vnodes hv' with ⟨_, hphase⟩ | ⟨hne, _⟩
          · have hkept : ((t.registry.get m.nodeId).map fun u => u.phase).getD .idle = m.phase := by
              by_contra hne
              simp [hne, hphase] at hflag
            cases hget : t.registry.get m.nodeId with
            | none =>
              rw [hget] at hkept
              rw [← hkept] at hphase
              exact absurd hphase (by decide)
            | some u =>
              rw [hget] at hkept
              exact congrArg some hkept.symm
          · exact absurd hid hne
        · rw [OrderedMap.get_insert_of_ne _ _ hid]
      · cases hflag
  · rw [hrun]

theorem TopologyManager.collect_unflagged {t' : TopologyManager} {flags : List Bool}
    (hsep : Along applied TopologyManager.Separated t members) (h : collect members apply t = (.ok flags, t')) :
    t'.generation = t.generation ∧ (flags.count true = 0 → t'.ownership = t.ownership) := by
  induction members generalizing t flags with
  | nil =>
    cases h
    exact ⟨rfl, fun _ => rfl⟩
  | cons m members ih =>
    rw [Prog.collect] at h
    obtain ⟨flag, t₁, hfirst, hrest⟩ := of_bind_ok h
    obtain ⟨rest, t₂, hcollect, hdone⟩ := of_bind_ok hrest
    cases hdone
    obtain ⟨hsepm, hseprest⟩ := hsep
    rw [applied, hfirst] at hseprest
    obtain ⟨hgeneration, hsame⟩ := ih hseprest hcollect
    have hstep := apply_generation m t
    rw [hfirst] at hstep
    refine ⟨hgeneration.trans hstep, ?_⟩
    intro hcount
    rw [List.count_cons] at hcount
    have hflag : flag = false := by
      cases flag with
      | false => rfl
      | true => simp at hcount
    have hunflagged := ownership_of_unflagged hsepm (by rw [hfirst, hflag])
    rw [hfirst] at hunflagged
    exact (hsame (by omega)).trans hunflagged

structure Announced (t t' : TopologyManager) (notified : Bool) : Prop where
  generation : t'.generation = if notified then t.generation + 1 else t.generation
  ownership : notified = false → t'.ownership = t.ownership

theorem announced_applyMember (hsep : Along applied TopologyManager.Separated t [m]) {flag : Bool}
    (h : (applyMember m t).1 = .ok flag) : Announced t (applyMember m t).2 flag := by
  rcases hrun : applyMember m t with ⟨r, t'⟩
  rw [hrun] at h
  dsimp only at h ⊢
  subst h
  rw [applyMember] at hrun
  obtain ⟨changed, t₁, happly, hrest⟩ := of_bind_ok hrun
  obtain ⟨_, t₂, hnotify, hdone⟩ := of_bind_ok hrest
  cases hdone
  have hgeneration := apply_generation m t
  rw [happly] at hgeneration
  rcases of_whenever_ok hnotify with ⟨rfl, hnotify⟩ | ⟨hquiet, rfl⟩
  · cases hnotify
    exact ⟨congrArg (· + 1) hgeneration, by rintro ⟨⟩⟩
  · have hflag : flag = false := by simpa using hquiet
    subst hflag
    refine ⟨hgeneration, fun _ => ?_⟩
    have hsame := ownership_of_unflagged hsep.1 (by rw [happly])
    rwa [happly] at hsame

theorem announced_mergeRegistry (hsep : Along applied TopologyManager.Separated t members) {accepted : Nat}
    (h : (mergeRegistry members t).1 = .ok accepted) : Announced t (mergeRegistry members t).2 (accepted ≠ 0) := by
  rcases hrun : mergeRegistry members t with ⟨r, t'⟩
  rw [hrun] at h
  dsimp only at h ⊢
  subst h
  rw [mergeRegistry] at hrun
  obtain ⟨flags, t₁, hcollect, hrest⟩ := of_bind_ok hrun
  obtain ⟨_, t₂, hnotify, hdone⟩ := of_bind_ok hrest
  cases hdone
  obtain ⟨hgeneration, hsame⟩ := collect_unflagged hsep hcollect
  rcases of_whenever_ok hnotify with ⟨hne, hnotify⟩ | ⟨hquiet, rfl⟩
  · cases hnotify
    refine ⟨?_, fun hfalse => absurd hne (by simpa using hfalse)⟩
    rw [if_pos (by simpa using hne)]
    exact congrArg (· + 1) hgeneration
  · refine ⟨?_, fun _ => hsame (not_not.mp hquiet)⟩
    rw [if_neg (by simpa using hquiet)]
    exact hgeneration

def TopologyCall.Separated (c : TopologyCall) (t : TopologyManager) : Prop :=
  Along applied TopologyManager.Separated t c.records

theorem announced_call {c : TopologyCall} (hsep : c.Separated t) {notified : Bool}
    (h : c.notifies t = .ok notified) : Announced t (c.run t) notified := by
  cases c with
  | applyMember m => exact announced_applyMember hsep h
  | mergeRegistry members =>
    rw [TopologyCall.notifies] at h
    cases hrun : (TopologyManager.mergeRegistry members t).1 with
    | error e =>
      rw [hrun] at h
      cases h
    | ok accepted =>
      rw [hrun] at h
      obtain rfl := Except.ok.inj h
      exact announced_mergeRegistry hsep hrun
  | memberFingerprint =>
    obtain rfl : false = notified := Except.ok.inj h
    have hkept : ∀ t : TopologyManager, (TopologyManager.memberFingerprint t).2.generation = t.generation ∧
        (TopologyManager.memberFingerprint t).2.ownership = t.ownership := by
      intro t
      unfold TopologyManager.memberFingerprint
      rw [bind_ok (rfl : Prog.get t = (.ok t, t))]
      cases hcache : t.fingerprint with
      | some found => exact ⟨rfl, rfl⟩
      | none =>
        cases hcompute : TopologyManager.computeFingerprint t.registry with
        | error e => exact ⟨rfl, rfl⟩
        | ok found => exact ⟨rfl, rfl⟩
    exact ⟨(hkept t).1, fun _ => (hkept t).2⟩

end Changes

end Tourillon
