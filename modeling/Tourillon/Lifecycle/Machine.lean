import Tourillon.Store.Gate
import Tourillon.Store.Placement

namespace Tourillon

structure NodeState where
  nodeId : String
  phase : MemberPhase
  tokens : List String
  seeds : List String
  epoch : Nat
  deriving DecidableEq, Repr

structure NodeConfig where
  nodeId : String
  advertise : String
  seeds : List String
  deriving DecidableEq, Repr

def NodeState.member (state : NodeState) (advertise : String) : Member :=
  ⟨state.nodeId, advertise, state.epoch, state.phase, state.tokens⟩

def firstNonEmpty (xs ys zs : List String) : List String := if xs ≠ [] then xs else if ys ≠ [] then ys else zs

structure Ground where
  config : NodeConfig
  file : Option NodeState
  published : List Member
  gate : Gate
  draining : Bool

namespace Ground

variable (g : Ground)

def publishState (state : NodeState) : Ground :=
  { g with published := g.published ++ [state.member g.config.advertise] }

def edited (state : NodeState) (phase : MemberPhase) (tokens seeds : Option (List String)) :
    NodeState :=
  let document := g.file.getD state
  { document with
    phase := phase
    epoch := state.epoch + 1
    tokens := tokens.getD document.tokens
    seeds := seeds.getD document.seeds }

def transitionTo (state : NodeState) (phase : MemberPhase) (tokens seeds : Option (List String)) : Ground :=
  { g with
    file := some (g.edited state phase tokens seeds)
    draining := g.draining && phase ≠ .ready }

def pause (readable : Bool) : Ground := { g with gate := g.gate.pause readable }

def resume : Ground := { g with gate := g.gate.resume }

def reseeded (state : NodeState) (seeds : List String) : NodeState :=
  { g.file.getD state with seeds := seeds }

end Ground

inductive JoinStage where
  | entering (state : NodeState)
  | syncing (state : NodeState)
  | announcing (state : NodeState)
  | filling (state : NodeState)
  | completing (state : NodeState)
  | failing (state : NodeState)
  | resuming (ready : NodeState)
  | opening (ready : NodeState)
  | closing (failed : NodeState)
  deriving DecidableEq, Repr

def JoinStage.step (g : Ground) (ok : Bool) : JoinStage → Ground × Option JoinStage
  | entering state => if ok then (g.publishState state, some (.syncing state)) else (g, none)
  | syncing state => (g, some (if ok then .announcing state else .failing state))
  | announcing state => (g.publishState state, some (.filling state))
  | filling state => (g, some (if ok then .completing state else .failing state))
  | completing state =>
    (g.transitionTo state .ready none none, some (.resuming (g.edited state .ready none none)))
  | failing state =>
    (g.transitionTo state .failed none none, some (.closing (g.edited state .failed none none)))
  | resuming ready => (g.resume, some (.opening ready))
  | opening ready => if ok then (g.publishState ready, none) else (g, none)
  | closing failed => (g.publishState failed, none)

inductive DrainStage where
  | settling (state : NodeState)
  | handing (state : NodeState)
  | idling (state : NodeState)
  | closing (idle : NodeState)
  deriving DecidableEq, Repr

def DrainStage.step (g : Ground) (ok : Bool) : DrainStage → Ground × Option DrainStage
  | settling state => if ok then (g.pause true, some (.handing state)) else (g.pause true, none)
  | handing state =>
    if ok then ({ g with gate := g.gate.stopReadRepairs.pause false }, some (.idling state))
    else (g, none)
  | idling state => (g.transitionTo state .idle none none, some (.closing (g.edited state .idle none none)))
  | closing idle => (g.publishState idle, none)

inductive Spawn where
  | join (state : NodeState)
  | drain (state : NodeState)
  deriving DecidableEq, Repr

inductive MembershipRequest where
  | joinLoading (seeds : List String)
  | joinWriting (state : NodeState) (seeds : List String)
  | joinWritten (joining : NodeState)
  | drainLoading
  | drainChecking (state : NodeState)
  | drainWriting (state : NodeState) (seeds : List String)
  | drainPausing (state : NodeState)
  | drainPublishing (state : NodeState)
  deriving DecidableEq, Repr

def maxDrainSeeds : Nat := 5

def drainSeeds (state : NodeState) (registry : MemberRegistry) : List String :=
  let found := (((registry.entries.map Prod.snd).filter fun m =>
    m.nodeId ≠ state.nodeId && m.phase ∈ [MemberPhase.ready, .paused]).map
      Member.peerAddress).take maxDrainSeeds
  if found ≠ [] then found else state.seeds.take maxDrainSeeds

namespace MembershipRequest

def step (g : Ground) (tokens : List String) (topology : Topology) :
    MembershipRequest → Ground × Option MembershipRequest × Option Spawn
  | joinLoading seeds =>
    match g.file with
    | none => (g, none, none)
    | some state =>
      let effective := firstNonEmpty seeds state.seeds g.config.seeds
      if state.phase = .draining ∨ effective = [] then (g, none, none)
      else (g, some (.joinWriting state effective), none)
  | joinWriting state seeds =>
    (g.transitionTo state .joining (some tokens) (some seeds),
      some (.joinWritten (g.edited state .joining (some tokens) (some seeds))), none)
  | joinWritten joining => (g, none, some (.join joining))
  | drainLoading =>
    match g.file with
    | none => (g, none, none)
    | some state =>
      if state.phase ∈ [MemberPhase.ready, .paused, .draining] then
        (g, some (.drainChecking state), none)
      else (g, none, none)
  | drainChecking state =>
    if (topology.ring.dropNodes [state.nodeId]).vnodes = [] then (g, none, none)
    else if state.phase = .draining then (g, some (.drainPausing state), none)
    else (g, some (.drainWriting state (drainSeeds state topology.registry)), none)
  | drainWriting state seeds =>
    (g.transitionTo state .draining none (some seeds),
      some (.drainPausing (g.edited state .draining none (some seeds))), none)
  | drainPausing state => (g.pause true, some (.drainPublishing state), none)
  | drainPublishing state => ({ g.publishState state with draining := true }, none, some (.drain state))

end MembershipRequest

inductive Startup where
  | loading (seeds : List String)
  | binding (state : NodeState) (seeds : List String)
  | idle (state : NodeState) (seeds : List String)
  | reseeding (state : NodeState) (seeds : List String)
  | locking (state : NodeState)
  | joining (stage : JoinStage)
  | syncing (ready : NodeState)
  | resuming (ready : NodeState)
  | listening
  | pausing
  | resyncing (state : NodeState)
  | handing (state : NodeState)
  | finished
  deriving DecidableEq, Repr

namespace Startup

def afterBinding (state : NodeState) (seeds : List String) : Startup :=
  match state.phase with
  | .idle => .idle state seeds
  | .joining => if seeds ≠ [] then .reseeding state seeds else .locking state
  | .ready => if seeds ≠ [] then .reseeding state seeds else .syncing state
  | .draining => .pausing
  | .failed => .finished
  | .paused => .finished

def listens : Startup → Bool
  | loading _ => false
  | binding _ _ => false
  | _ => true

def holdsLock : Startup → Bool
  | joining _ => true
  | _ => false

def step (g : Ground) (ok locked : Bool) (tokens : List String) : Startup → Ground × Startup × Option Spawn
  | loading seeds =>
    match g.file with
    | some state => (g, .binding state seeds, none)
    | none =>
      let state : NodeState := ⟨g.config.nodeId, .idle, [], [], 0⟩
      ({ g with file := some state }, .binding state seeds, none)
  | binding state seeds => (g, if ok then afterBinding state seeds else .finished, none)
  | idle state seeds =>
    if firstNonEmpty seeds state.seeds g.config.seeds ≠ [] then (g, .finished, none)
    else (g.transitionTo state .ready (some tokens) none,
      .syncing (g.edited state .ready (some tokens) none), none)
  | reseeding state seeds =>
    ({ g with file := some (g.reseeded state seeds) },
      if state.phase = .joining then .locking (g.reseeded state seeds)
      else .syncing (g.reseeded state seeds), none)
  | locking state =>
    if locked then (g, .locking state, none)
    else (g, if state.phase = .joining then .joining (.entering state) else .finished, none)
  | joining stage =>
    match stage.step g ok with
    | (g', some stage') => (g', .joining stage', none)
    | (g', none) => (g', .finished, none)
  | syncing ready =>
    if ok ∧ ready.phase = .ready then (g.publishState ready, .resuming ready, none)
    else (g, .finished, none)
  | resuming _ => (g.resume, .listening, none)
  | listening => (g, .finished, none)
  | pausing =>
    match g.file with
    | none => (g.pause true, .finished, none)
    | some state => (g.pause true, .resyncing state, none)
  | resyncing state => if ok then (g.publishState state, .handing state, none) else (g, .finished, none)
  | handing state => (g, .finished, if ok then some (.drain state) else none)
  | finished => (g, .finished, none)

end Startup

structure NodeProcess where
  startup : Startup
  request : Option MembershipRequest
  joinTask : Option JoinStage
  drainTask : Option DrainStage
  orphans : List DrainStage

namespace NodeProcess

variable (p : NodeProcess)

def isJoining : Bool := p.joinTask.isSome

def isDraining : Bool := p.drainTask.isSome

def locked : Bool := p.request.isSome || p.startup.holdsLock

def spawn : Option Spawn → NodeProcess
  | none => p
  | some (.join state) => { p with joinTask := some (.entering state) }
  | some (.drain state) =>
    { p with drainTask := some (.settling state), orphans := p.drainTask.toList ++ p.orphans }

end NodeProcess

structure NodeLifecycle where
  ground : Ground
  process : Option NodeProcess

inductive LifecycleAction where
  | boot (config : NodeConfig) (seeds : List String)
  | crash
  | startup (ok : Bool) (tokens : List String)
  | failStartup
  | requestJoin (seeds : List String)
  | requestDrain
  | request (tokens : List String) (topology : Topology)
  | failRequest
  | joinTask (ok : Bool)
  | failJoin
  | drainTask (ok : Bool)
  | failDrain
  | orphan (i : Nat) (ok : Bool)

namespace NodeLifecycle

def boot (s : NodeLifecycle) (config : NodeConfig) (seeds : List String) : NodeLifecycle where
  ground := { s.ground with config := config, gate := .opened, draining := false }
  process := some ⟨.loading seeds, none, none, none, []⟩

def act (g : Ground) (p : NodeProcess) : LifecycleAction → Ground × NodeProcess
  | .startup ok tokens =>
    match p.startup.step g ok p.locked tokens with
    | (g', startup, spawned) => (g', { p with startup := startup }.spawn spawned)
  | .failStartup => (g, { p with startup := .finished })
  | .requestJoin seeds =>
    if p.startup.listens && !p.locked && !p.isDraining && !p.isJoining then
      (g, { p with request := some (.joinLoading seeds) })
    else (g, p)
  | .requestDrain =>
    if p.startup.listens && !p.locked && !p.isJoining && !p.isDraining then
      (g, { p with request := some .drainLoading })
    else (g, p)
  | .request tokens topology =>
    match p.request with
    | none => (g, p)
    | some request =>
      match request.step g tokens topology with
      | (g', next, spawned) => (g', { p with request := next }.spawn spawned)
  | .failRequest => (g, { p with request := none })
  | .joinTask ok =>
    match p.joinTask with
    | none => (g, p)
    | some stage =>
      match stage.step g ok with
      | (g', next) => (g', { p with joinTask := next })
  | .failJoin => (g, { p with joinTask := none })
  | .drainTask ok =>
    match p.drainTask with
    | none => (g, p)
    | some stage =>
      match stage.step g ok with
      | (g', next) => (g', { p with drainTask := next })
  | .failDrain => (g, { p with drainTask := none })
  | .orphan i ok =>
    match p.orphans[i]? with
    | none => (g, p)
    | some stage =>
      match stage.step g ok with
      | (g', some next) => (g', { p with orphans := p.orphans.set i next })
      | (g', none) => (g', { p with orphans := p.orphans.eraseIdx i })
  | _ => (g, p)

def step (s : NodeLifecycle) (a : LifecycleAction) : NodeLifecycle :=
  match s.process with
  | none =>
    match a with
    | .boot config seeds => s.boot config seeds
    | _ => s
  | some p =>
    match a with
    | .crash => { s with process := none }
    | _ => ⟨(act s.ground p a).1, some (act s.ground p a).2⟩

def run (s : NodeLifecycle) (actions : List LifecycleAction) : NodeLifecycle := actions.foldl step s

end NodeLifecycle

end Tourillon
