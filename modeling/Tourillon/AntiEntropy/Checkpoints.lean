import Tourillon.AntiEntropy.PassSpec
import Tourillon.AntiEntropy.Reconcile
import Tourillon.AntiEntropy.ViewFreshness

namespace Tourillon

open Machine Prog Sequence TopologyManager ViewTracker TrackerState List

structure Sitting where
  sync : PeerSync
  pids : List Nat

structure CheckpointState where
  tracking : TrackerState
  world : World
  sources : List (Topology × ReplicaView)
  views : List ReplicaView
  sittings : List Sitting
  recorded : Nat → List ReplicaView

inductive CheckpointAction where
  | track (a : TrackerAction)
  | take
  | session (peer : String) (pids : List Nat) (n : Nat) (cutoffMs : Int)
  | advance (i : Nat) (f : SyncProgress → SyncProgress)

section Model

variable [Digests]

def ViewTracker.publication (k : ViewTracker) (s : TrackerState) : TrackerAction → Option (Topology × ReplicaView)
  | .publish =>
    match s.stage with
    | .building _ topology =>
      topology.ring.serial.toOption.map fun serial =>
        (topology, buildView topology serial k.partitioner k.space k.rf k.nodeId)
    | _ => none
  | _ => none

namespace CheckpointState

def boot (w : World) : CheckpointState where
  tracking := .initial
  world := { w with shared := { w.shared with refs := [] } }
  sources := []
  views := []
  sittings := []
  recorded _ := []

def step (k : ViewTracker) (sv : Service) (s : CheckpointState) : CheckpointAction → CheckpointState
  | .track a =>
    { s with
      tracking := k.step s.tracking a
      sources := s.sources ++ (k.publication s.tracking a).toList }
  | .take => { s with views := s.views ++ s.tracking.view.toList }
  | .session peer pids n cutoffMs =>
    match s.views[n]? with
    | none => s
    | some view =>
      match Service.syncProgress peer view s.world with
      | (.error _, w) => { s with world := w }
      | (.ok ref, w) =>
        { s with
          world := w
          sittings := s.sittings ++ [⟨sv.peerSync peer view n cutoffMs ref, pids⟩] }
  | .advance i f =>
    match s.sittings[i]? with
    | none => s
    | some e =>
      { s with
        world := (e.sync.advance f s.world).2
        recorded := fun ref => if ref = e.sync.ref then e.sync.view :: s.recorded ref else s.recorded ref }

def run (k : ViewTracker) (sv : Service) (w : World) (actions : List CheckpointAction) :
    CheckpointState := actions.foldl (step k sv) (boot w)

def Steady (k : ViewTracker) (s : CheckpointState) : CheckpointAction → Prop
  | .track a => ∀ p ∈ k.publication s.tracking a, ∀ q ∈ s.sources, q.2.serial = p.2.serial →
      q.1.ring = p.1.ring ∧ q.1.targets = p.1.targets
  | _ => True

end CheckpointState

end Model

theorem buildView_replicas_congr {t t' : Topology} (hring : t.ring = t'.ring)
    (htargets : t.targets = t'.targets) (serial serial' : String) (p : Partitioner) (space : HashSpace)
    (rf : Nat) (node : String) :
    (buildView t serial p space rf node).replicas = (buildView t' serial' p space rf node).replicas := by
  have hat : t.replicasAt p space rf = t'.replicasAt p space rf := by
    funext pid
    simp only [Topology.replicasAt, Topology.walks, Topology.position, hring, htargets]
  rw [buildView_replicas, buildView_replicas, hat]

theorem buildView_serial (t : Topology) (serial : String) (p : Partitioner) (space : HashSpace)
    (rf : Nat) (node : String) : (buildView t serial p space rf node).serial = serial := by
  rw [buildView]
  split
  · rfl
  · rfl

theorem TrackerState.perform_applied [Digests] {s : TrackerState} {m : Member} {t : TopologyManager}
    (h : applyMember m s.manager = (.ok true, t)) (hkeyed : t.registry.Keyed)
    (hne : t.ownership ≠ s.manager.ownership) : s.perform (.applyMember m) = { s with
        manager := t
        keyed := hkeyed
        notifying := s.notifying + 1
        changes := s.changes + 1 } := by
  obtain rfl : (applyMember m s.manager).2 = t := congrArg Prod.snd h
  have hnotified : TopologyCall.notifies s.manager (.applyMember m) = .ok true := congrArg Prod.fst h
  have hchanged : (TopologyCall.run s.manager (.applyMember m)).ownership ≠ s.manager.ownership := hne
  rw [perform, if_pos hnotified, if_neg hchanged]
  rfl

section Publication

variable [Digests] {k : ViewTracker} {t : TrackerState} {a : TrackerAction}

theorem ViewTracker.of_publication {p : Topology × ReplicaView} (h : k.publication t a = some p) :
    p.2 = buildView p.1 p.2.serial k.partitioner k.space k.rf k.nodeId := by
  cases a with
  | publish =>
    rw [publication] at h
    split at h
    · obtain ⟨serial, _, rfl⟩ := Option.map_eq_some_iff.mp h
      rw [buildView_serial]
    · cases h
  | _ => cases h

theorem ViewTracker.view_step {view : ReplicaView} (h : (k.step t a).view = some view) :
    t.view = some view ∨ ∃ topology, k.publication t a = some (topology, view) := by
  cases a with
  | call c => exact .inl h
  | notify =>
    left
    rw [step, wakeWaiters] at h
    split at h
    · exact h
    · split at h
      · exact h
      · exact h
  | publish =>
    rw [step] at h
    split at h
    · rename_i g topology hstage
      rw [publish] at h
      simp only [publication, hstage]
      cases hserial : topology.ring.serial with
      | error e =>
        rw [hserial] at h
        exact .inl h
      | ok serial =>
        rw [hserial] at h
        right
        refine ⟨topology, ?_⟩
        exact congrArg (fun v => some (topology, v)) (Option.some.inj h)
    · exact .inl h
  | check =>
    left
    rw [step] at h
    split at h
    · split at h
      · exact h
      · cases h
    · exact h
  | _ =>
    left
    rw [step] at h
    split at h
    · exact h
    · exact h

end Publication

structure Scoped (k : ViewTracker) (s : CheckpointState) : Prop where
  sources : ∀ p ∈ s.sources, p.2 = buildView p.1 p.2.serial k.partitioner k.space k.rf k.nodeId
  alike : ∀ p ∈ s.sources, ∀ q ∈ s.sources, q.2.serial = p.2.serial → q.2.replicas = p.2.replicas
  current : ∀ view ∈ s.tracking.view, ∃ t, (t, view) ∈ s.sources
  taken : ∀ view ∈ s.views, ∃ t, (t, view) ∈ s.sources
  sat : ∀ e ∈ s.sittings, e.sync.view ∈ s.views
  issued : ∀ e ∈ s.world.shared.refs, e.2 < s.world.shared.nextRef
  held : ∀ e ∈ s.sittings, e.sync.ref < s.world.shared.nextRef
  distinct : ∀ e ∈ s.world.shared.refs, ∀ e' ∈ s.world.shared.refs, e.2 = e'.2 → e.1.2 = e'.1.2
  keyed : ∀ e ∈ s.world.shared.refs, ∀ e' ∈ s.sittings, e'.sync.ref = e.2 → e'.sync.view.serial = e.1.2
  shared : ∀ e ∈ s.sittings, ∀ e' ∈ s.sittings, e.sync.ref = e'.sync.ref →
    e.sync.view.serial = e'.sync.view.serial
  recorded : ∀ ref, ∀ view ∈ s.recorded ref, ∃ e ∈ s.sittings, e.sync.ref = ref ∧ e.sync.view = view

section Scope

variable {k : ViewTracker} {sv : Service} {s : CheckpointState}

theorem Scoped.alike_append {p : Topology × ReplicaView} (h : Scoped k s)
    (hp : p.2 = buildView p.1 p.2.serial k.partitioner k.space k.rf k.nodeId)
    (hsteady : ∀ q ∈ s.sources, q.2.serial = p.2.serial → q.1.ring = p.1.ring ∧ q.1.targets = p.1.targets) :
    ∀ q ∈ s.sources, q.2.serial = p.2.serial → q.2.replicas = p.2.replicas := by
  intro q hq hserial
  obtain ⟨hring, htargets⟩ := hsteady q hq hserial
  rw [h.sources q hq, hp]
  exact buildView_replicas_congr hring htargets ..

theorem scoped_boot (k : ViewTracker) (w : World) : Scoped k (.boot w) where
  sources := nofun
  alike := nofun
  current := nofun
  taken := nofun
  sat := nofun
  issued := nofun
  held := nofun
  distinct := nofun
  keyed := nofun
  shared := nofun
  recorded := nofun

theorem Scoped.fresh (h : Scoped k s) (peer serial : String) :
    Scoped k { s with world := { s.world with shared := s.world.shared.newProgress peer serial } } := by
  refine ⟨h.sources, h.alike, h.current, h.taken, h.sat, ?_, ?_, ?_, ?_, h.shared, h.recorded⟩
  · intro e he
    rcases mem_newProgress he with hold | rfl
    · exact (h.issued e hold).trans (Nat.lt_succ_self _)
    · exact Nat.lt_succ_self _
  · intro e he
    exact (h.held e he).trans (Nat.lt_succ_self _)
  · intro e he e' he' hsame
    rcases mem_newProgress he with hold | rfl
    · rcases mem_newProgress he' with hold' | rfl
      · exact h.distinct e hold e' hold' hsame
      · exact absurd hsame (h.issued e hold).ne
    · rcases mem_newProgress he' with hold' | rfl
      · exact absurd hsame (h.issued e' hold').ne'
      · rfl
  · intro e he e' he' hsame
    rcases mem_newProgress he with hold | rfl
    · exact h.keyed e hold e' he' hsame
    · exact absurd hsame (h.held e' he').ne

theorem Scoped.sit (h : Scoped k s) {new : Sitting} {peer : String} (hview : new.sync.view ∈ s.views)
    (hentry : ((peer, new.sync.view.serial), new.sync.ref) ∈ s.world.shared.refs) :
    Scoped k { s with sittings := s.sittings ++ [new] } := by
  refine ⟨h.sources, h.alike, h.current, h.taken, ?_, h.issued, ?_, h.distinct, ?_, ?_, ?_⟩
  · intro e he
    rcases mem_append.mp he with he | he
    · exact h.sat e he
    · rw [mem_singleton.mp he]
      exact hview
  · intro e he
    rcases mem_append.mp he with he | he
    · exact h.held e he
    · rw [mem_singleton.mp he]
      exact h.issued _ hentry
  · intro e he e' he' hsame
    rcases mem_append.mp he' with he' | he'
    · exact h.keyed e he e' he' hsame
    · obtain rfl := mem_singleton.mp he'
      exact h.distinct _ hentry e he hsame
  · intro e he e' he' hsame
    rcases mem_append.mp he with hold | hnew
    · rcases mem_append.mp he' with hold' | hnew'
      · exact h.shared e hold e' hold' hsame
      · obtain rfl := mem_singleton.mp hnew'
        exact h.keyed _ hentry e hold hsame
    · obtain rfl := mem_singleton.mp hnew
      rcases mem_append.mp he' with hold' | hnew'
      · exact (h.keyed _ hentry e' hold' hsame.symm).symm
      · rw [mem_singleton.mp hnew']
  · intro ref view hrecorded
    obtain ⟨e, he, hsame⟩ := h.recorded ref view hrecorded
    exact ⟨e, mem_append_left _ he, hsame⟩

variable [Digests]

section

variable (h : Scoped k s)

include h

theorem Scoped.track {a : TrackerAction} (ha : s.Steady k (.track a)) : Scoped k (s.step k sv (.track a)) := by
  have hmem {p : Topology × ReplicaView} :
      p ∈ s.sources ++ (k.publication s.tracking a).toList ↔
        p ∈ s.sources ∨ k.publication s.tracking a = some p := by
    rw [mem_append, Option.mem_toList]
  have hkept {view : ReplicaView} (hview : ∃ t, (t, view) ∈ s.sources) :
      ∃ t, (t, view) ∈ s.sources ++ (k.publication s.tracking a).toList :=
    hview.imp fun t ht => hmem.mpr (.inl ht)
  refine ⟨?_, ?_, ?_, fun view hview => hkept (h.taken view hview), h.sat, h.issued, h.held, h.distinct,
    h.keyed, h.shared, h.recorded⟩
  · intro p hp
    rcases hmem.mp hp with hold | hnew
    · exact h.sources p hold
    · exact of_publication hnew
  · intro p hp q hq hserial
    rcases hmem.mp hp with hp | hp
    · rcases hmem.mp hq with hq | hq
      · exact h.alike p hp q hq hserial
      · exact (h.alike_append (of_publication hq) (ha q hq) p hp hserial.symm).symm
    · rcases hmem.mp hq with hq | hq
      · exact h.alike_append (of_publication hp) (ha p hp) q hq hserial
      · rw [Option.some.inj (hp.symm.trans hq)]
  · intro view hview
    rcases view_step hview with hold | ⟨t, ht⟩
    · exact hkept (h.current view hold)
    · exact ⟨t, hmem.mpr (.inr ht)⟩

theorem Scoped.take : Scoped k (s.step k sv .take) := by
  refine ⟨h.sources, h.alike, h.current, ?_, ?_, h.issued, h.held, h.distinct, h.keyed, h.shared, h.recorded⟩
  · intro view hview
    rcases mem_append.mp hview with hview | hview
    · exact h.taken view hview
    · exact h.current view (Option.mem_toList.mp hview)
  · intro e he
    exact mem_append_left _ (h.sat e he)

theorem Scoped.session (peer : String) (pids : List Nat) (n : Nat) (cutoffMs : Int) :
    Scoped k (s.step k sv (.session peer pids n cutoffMs)) := by
  rw [CheckpointState.step]
  cases hview : s.views[n]? with
  | none => exact h
  | some view =>
    dsimp only
    have hmem : view ∈ s.views := mem_of_getElem? hview
    rw [Service.syncProgress, bind_ok (rfl : get s.world = (.ok s.world, s.world))]
    cases hlookup : s.world.shared.refs.lookup (peer, view.serial) with
    | some ref => exact h.sit hmem (mem_of_lookup_eq_some hlookup)
    | none => exact (h.fresh peer view.serial).sit hmem (mem_append_right _ (mem_singleton_self _))

theorem Scoped.advance (i : Nat) (f : SyncProgress → SyncProgress) : Scoped k (s.step k sv (.advance i f)) := by
  rw [CheckpointState.step]
  cases hsitting : s.sittings[i]? with
  | none => exact h
  | some e =>
    have hmem : e ∈ s.sittings := mem_of_getElem? hsitting
    refine ⟨h.sources, h.alike, h.current, h.taken, h.sat, h.issued, h.held, h.distinct, h.keyed, h.shared, ?_⟩
    intro ref view hview
    dsimp only at hview
    split at hview
    · rename_i href
      rcases mem_cons.mp hview with rfl | hview
      · exact ⟨e, hmem, href.symm, rfl⟩
      · exact h.recorded ref view hview
    · exact h.recorded ref view hview

theorem Scoped.step {a : CheckpointAction} (ha : s.Steady k a) : Scoped k (s.step k sv a) := by
  cases a with
  | track a => exact h.track ha
  | take => exact h.take
  | session peer pids n cutoffMs => exact h.session peer pids n cutoffMs
  | advance i f => exact h.advance i f

end

theorem checkpoints_scoped (k : ViewTracker) (sv : Service) (w : World) {actions : List CheckpointAction}
    (h : Along (CheckpointState.step k sv) (CheckpointState.Steady k) (.boot w) actions) :
    ∀ e ∈ (CheckpointState.run k sv w actions).sittings,
      ∀ view ∈ (CheckpointState.run k sv w actions).recorded e.sync.ref,
        ∀ pid ∈ e.pids, view.replicasOf pid = e.sync.view.replicasOf pid := by
  intro e he view hview pid _
  have hscoped : Scoped k (CheckpointState.run k sv w actions) :=
    h.invariant (fun _ _ ha hs => hs.step ha) (scoped_boot k w)
  obtain ⟨e', he', href, rfl⟩ := hscoped.recorded _ view hview
  obtain ⟨t, ht⟩ := hscoped.taken _ (hscoped.sat e he)
  obtain ⟨t', ht'⟩ := hscoped.taken _ (hscoped.sat e' he')
  have hreplicas := hscoped.alike _ ht _ ht' (hscoped.shared e' he' e he href)
  rw [ReplicaView.replicasOf, ReplicaView.replicasOf, hreplicas]

end Scope

namespace Sample

def guest : Member := ⟨"b", "b:1", 1, .ready, ["05"]⟩

def leaver : Member := ⟨"c", "c:1", 1, .ready, ["0f"]⟩

def leaving : Member := ⟨"c", "c:1", 2, .draining, ["0f"]⟩

def paired : TopologyManager where
  registry := hosted.registry.insert "b" guest
  ring := .make [⟨5, "b"⟩, ⟨10, "a"⟩]
  generation := 2
  fingerprint := none

def trio (third : Member) (generation : Nat) : TopologyManager where
  registry := paired.registry.insert "c" third
  ring := .make [⟨5, "b"⟩, ⟨10, "a"⟩, ⟨15, "c"⟩]
  generation := generation
  fingerprint := none

theorem guest_applied : applyMember guest hosted = (.ok true, paired) := by
  have hvnodes : guest.vnodes = .ok [⟨5, "b"⟩] := by decide +kernel
  have hderived : derivedRing hosted.ring guest = .ok paired.ring :=
    derivedRing_ok (by decide) hvnodes (by decide) (by decide)
  exact applyMember_ok ⟨by decide⟩ hderived ⟨_, _, rfl, rfl, by decide +kernel⟩

theorem leaver_applied : applyMember leaver paired = (.ok true, trio leaver 3) := by
  have hvnodes : leaver.vnodes = .ok [⟨15, "c"⟩] := by decide +kernel
  have hderived : derivedRing paired.ring leaver = .ok (trio leaver 3).ring :=
    derivedRing_ok (by decide) hvnodes (by decide) (by decide)
  exact applyMember_ok ⟨by decide⟩ hderived ⟨_, _, rfl, rfl, by decide +kernel⟩

theorem leaving_applied : applyMember leaving (trio leaver 3) = (.ok true, trio leaving 4) := by
  have hvnodes : leaving.vnodes = .ok [⟨15, "c"⟩] := by decide +kernel
  have hderived : derivedRing (trio leaver 3).ring leaving = .ok (trio leaving 4).ring :=
    derivedRing_ok (by decide) hvnodes (by decide) (by decide)
  exact applyMember_ok ⟨by decide⟩ hderived ⟨_, _, rfl, rfl, by decide +kernel⟩

theorem hosted_keyed : hosted.registry.Keyed := by
  have hempty : (∅ : MemberRegistry).Keyed := by
    intro id m hm
    cases hm
  exact hempty.insert host

theorem paired_keyed : paired.registry.Keyed := hosted_keyed.insert guest

theorem trio_keyed {third : Member} (h : third.nodeId = "c") (generation : Nat) :
    (trio third generation).registry.Keyed := by
  have hinsert := paired_keyed.insert third
  rwa [h] at hinsert

def wideTracker : ViewTracker := { viewTracker with rf := 3 }

def stopover (p : SyncProgress) : SyncProgress :=
  { p with positions := fun pid => if pid = 0 then some (2, none) else p.positions pid }

def joins : List CheckpointAction :=
  [.track (.call (.applyMember host)), .track (.call (.applyMember guest)), .track (.call (.applyMember leaver))]

def firstSession : List CheckpointAction :=
  [.track .start, .track .snapshot, .track .publish, .take, .session "b" [0, 1, 2, 3] 0 0, .advance 0 stopover]

def secondSession : List CheckpointAction :=
  [.track .check, .track .rebuild, .track .snapshot, .track .publish, .take, .session "b" [0, 1, 2, 3] 1 0]

def caller : Service := ⟨"a", limits, 16, 0, limits.keysPositive⟩

def idleWorld : World := world (shared ["a", "b"] fun _ => [])

def joinedState : CheckpointState :=
  { CheckpointState.boot idleWorld with
    tracking := ⟨trio leaver 3, trio_keyed rfl 3, 3, .idle, none, false, 3, 0⟩ }

theorem joins_run : joins.foldl (CheckpointState.step wideTracker caller) (.boot idleWorld) = joinedState := by
  have hhost := perform_applied (s := .initial) host_applied hosted_keyed (by decide)
  have hguest := perform_applied (s := ⟨hosted, hosted_keyed, 1, .idle, none, false, 1, 0⟩)
    guest_applied paired_keyed (by decide)
  have hleaver := perform_applied (s := ⟨paired, paired_keyed, 2, .idle, none, false, 2, 0⟩)
    leaver_applied (trio_keyed rfl 3) (by decide)
  show { CheckpointState.boot idleWorld with
    tracking := ((initial.perform (.applyMember host)).perform (.applyMember guest)).perform
      (.applyMember leaver) } = joinedState
  rw [hhost]
  exact congrArg (fun t => { CheckpointState.boot idleWorld with tracking := t })
    ((congrArg (fun t => perform t (.applyMember leaver)) hguest).trans hleaver)

def visitedState : CheckpointState := firstSession.foldl (CheckpointState.step wideTracker caller) joinedState

def drainedState : CheckpointState :=
  { visitedState with
    tracking :=
      { visitedState.tracking with
        manager := trio leaving 4
        keyed := trio_keyed rfl 4
        notifying := 4
        changes := 4 } }

theorem leaving_run :
    visitedState.step wideTracker caller (.track (.call (.applyMember leaving))) = drainedState := by
  have hleaving := perform_applied (s := visitedState.tracking) leaving_applied
    (trio_keyed rfl 4) (by decide +kernel)
  show { visitedState with
    tracking := visitedState.tracking.perform (.applyMember leaving)
    sources := visitedState.sources ++ [] } = drainedState
  rw [hleaving, append_nil]
  rfl

def drainedMidway : List CheckpointAction :=
  joins ++ (firstSession ++ .track (.call (.applyMember leaving)) :: secondSession)

theorem drainedMidway_run : CheckpointState.run wideTracker caller idleWorld drainedMidway =
    secondSession.foldl (CheckpointState.step wideTracker caller) drainedState := by
  rw [CheckpointState.run, drainedMidway, foldl_append, joins_run, foldl_append, foldl_cons]
  exact congrArg (secondSession.foldl (CheckpointState.step wideTracker caller)) leaving_run

theorem draining_resumes_old_checkpoint :
    ∃ e ∈ (CheckpointState.run wideTracker caller idleWorld drainedMidway).sittings,
      ("b", e.pids) ∈ e.sync.view.shared ∧
      ∃ view ∈ (CheckpointState.run wideTracker caller idleWorld drainedMidway).recorded e.sync.ref,
        ∃ pid ∈ e.pids, view.replicasOf pid ≠ e.sync.view.replicasOf pid ∧
          ((CheckpointState.run wideTracker caller idleWorld drainedMidway).world.shared.progress
            e.sync.peer e.sync.ref).positions pid = some (2, none) := by
  rw [drainedMidway_run]
  decide +kernel

def revisited : List CheckpointAction := joins ++ (firstSession ++ [.session "b" [0, 1, 2, 3] 0 0])

theorem revisited_steady :
    Along (CheckpointState.step wideTracker caller) (CheckpointState.Steady wideTracker) (.boot idleWorld)
      revisited :=
  ⟨nofun, nofun, nofun, nofun, nofun, nofun, trivial, trivial, trivial, trivial, trivial⟩

theorem revisited_resumes : ∃ e ∈ (CheckpointState.run wideTracker caller idleWorld revisited).sittings,
      ∃ view ∈ (CheckpointState.run wideTracker caller idleWorld revisited).recorded e.sync.ref,
        ∀ pid ∈ e.pids, view.replicasOf pid = e.sync.view.replicasOf pid := by
  have hrun : CheckpointState.run wideTracker caller idleWorld revisited =
      visitedState.step wideTracker caller (.session "b" [0, 1, 2, 3] 0 0) := by
    rw [CheckpointState.run, revisited, foldl_append, joins_run, foldl_append]
    rfl
  have hfound : ∃ e ∈ (CheckpointState.run wideTracker caller idleWorld revisited).sittings,
      (CheckpointState.run wideTracker caller idleWorld revisited).recorded e.sync.ref ≠ [] := by
    rw [hrun]
    decide +kernel
  obtain ⟨e, he, hrecorded⟩ := hfound
  obtain ⟨view, hview⟩ := exists_mem_of_ne_nil _ hrecorded
  exact ⟨e, he, view, hview, checkpoints_scoped wideTracker caller idleWorld revisited_steady e he view hview⟩

end Sample

end Tourillon
