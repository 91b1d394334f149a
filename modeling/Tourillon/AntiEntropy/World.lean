import Tourillon.AntiEntropy.View
import Tourillon.Gossip.Ring
import Tourillon.Library.Program
import Tourillon.Storage.Retention

namespace Tourillon

open Endian Prog

inductive RejectCode where
  | staleView
  | notReplica
  | busy
  | notReady
  | invalid
  deriving DecidableEq, Repr

inductive AeError where
  | viewChanged
  | budgetSpent (what : String)
  | rejected (code : RejectCode) (reason : String)
  | transport
  | protocol (message : String)
  | python (e : PyError)
  | unfinished
  deriving DecidableEq, Repr

structure Tracker where
  view : Option ReplicaView
  epoch : Nat

structure Node where
  groups : Nat → GroupStorage
  tracker : Tracker
  running : Bool

structure SyncProgress where
  positions : Nat → Option (Nat × Option Bytes) := fun _ => none
  nextPid : Nat := 0

structure Shared where
  nodes : String → Node
  registry : String → Option MemberPhase
  alive : String → Bool
  deferred : String → Bool
  progress : String → Nat → SyncProgress
  refs : List ((String × String) × Nat)
  nextRef : Nat
  handed : List (Nat × (BitVec 128 × Bytes))
  backlog : Bool

def maxProgress : Nat := 256

namespace Shared

variable (sh : Shared)

def storage (node : String) (group : Nat) : GroupStorage := (sh.nodes node).groups group

def withGroup (node : String) (group : Nat) (g : GroupStorage) : Shared :=
  { sh with nodes := fun n =>
      if n = node then
        { sh.nodes n with groups := fun i => if i = group then g else (sh.nodes n).groups i }
      else sh.nodes n }

def withProgress (peer : String) (ref : Nat) (p : SyncProgress) : Shared :=
  { sh with progress := fun q r => if q = peer ∧ r = ref then p else sh.progress q r }

def newProgress (peer serial : String) : Shared :=
  let refs := sh.refs.filter fun e => e.1.2 = serial
  let refs := if refs.length ≥ maxProgress then refs.drop 1 else refs
  { sh.withProgress peer sh.nextRef {} with
    refs := refs ++ [((peer, serial), sh.nextRef)]
    nextRef := sh.nextRef + 1 }

def stale (node : String) (epoch : Nat) : Bool :=
  (sh.nodes node).tracker.view.isNone || (sh.nodes node).tracker.epoch ≠ epoch

end Shared

structure SessionTally where
  rootsCompared : Nat := 0
  pidsDiverged : Nat := 0
  keysScanned : Nat := 0
  pushed : Nat := 0
  pulled : Nat := 0
  pushedBytes : Nat := 0
  pulledBytes : Nat := 0
  deriving DecidableEq, Repr

structure Exchange where
  reached : List Nat := []
  skipped : List String := []
  failed : List String := []
  deriving DecidableEq, Repr

structure World where
  shared : Shared
  tick : Nat
  tally : SessionTally
  recent : List Nat
  folds : List (Finset Key)

structure Env where
  step : Nat → Shared → Shared
  fault : Nat → Option AeError
  commit : Nat → Except PyError Unit
  nowMs : Nat → Int

structure Cluster where
  partitioner : Partitioner
  policy : String → RetentionPolicy
  env : Env
  fuel : Nat

abbrev Ae (α : Type) : Type := Prog World AeError α

namespace Cluster

variable (c : Cluster)

def interfere : Ae Unit := modify fun w => { w with shared := c.env.step w.tick w.shared, tick := w.tick + 1 }

def transit : Ae Unit := do
  c.interfere
  let w ← get
  match c.env.fault w.tick with
  | some e => raise e
  | none => pure ()

def python {α : Type} (r : Except PyError α) : Ae α := lift (r.mapError AeError.python)

def readSession {α : Type} (node : String) (group : Nat) (f : GroupStorage → Except PyError α) : Ae α := do
  c.interfere
  let w ← get
  let a ← python (f (w.shared.storage node group))
  c.interfere
  pure a

def noteFolds (sets : List (Finset Key)) : Ae Unit := modify fun w => { w with folds := sets ++ w.folds }

def foldSession {α : Type} (node : String) (group : Nat) (f : GroupStorage → Except PyError α)
    (sets : α → GroupStorage → List (Finset Key)) : Ae α := do
  c.interfere
  let w ← get
  let a ← python (f (w.shared.storage node group))
  noteFolds (sets a (w.shared.storage node group))
  c.interfere
  pure a

def commitSession [Blake2b] {α : Type} (node : String) (group : Nat)
    (body : GroupSession → Except PyError (α × GroupSession)) : Ae α := fun w =>
  match GroupSessionManager.session body (c.env.commit w.tick) (w.shared.storage node group) with
  | (r, g) => (r.mapError AeError.python, { w with shared := w.shared.withGroup node group g })

def writeSession [Blake2b] {α : Type} (node : String) (group : Nat)
    (body : GroupSession → Except PyError (α × GroupSession)) : Ae α := do
  c.interfere
  let a ← c.commitSession node group body
  c.interfere
  pure a

def groupFor (pid : Nat) : Nat := c.partitioner.groupFor pid

def loop {β γ : Type} (body : β → Ae (β ⊕ γ)) (b : β) : Ae γ := iterate AeError.unfinished body c.fuel b

end Cluster

end Tourillon
