import Tourillon.Storage.ThreadPool
import Tourillon.Store.Gate

namespace Tourillon

def StoreOperation.fansOut : StoreOperation → Bool
  | write => true
  | delete => true
  | repair => true
  | _ => false

def StoreOperation.storesDirectly : StoreOperation → Bool
  | replicationWrite => true
  | replicationHint => true
  | _ => false

structure WriteTarget where
  home : Bool
  hinted : Bool
  deriving DecidableEq, Repr

def WriteTarget.mayStore (t : WriteTarget) : Bool := t.home || !t.hinted

inductive SessionMove where
  | acquire (pick : Nat)
  | resume
  | request
  | finish
  | raise
  deriving DecidableEq, Repr

def SessionMove.of (n : Nat) : SessionMove → SessionAction
  | acquire pick => .acquire n pick
  | resume => .resume n
  | request => .request n
  | finish => .finish n
  | raise => .raise n

inductive StoreAction where
  | pause (readable : Bool)
  | resume
  | stopReadRepairs
  | request (operation : StoreOperation)
  | readRepair (target : WriteTarget)
  | outsider
  | fanOut (n : Nat) (targets : List WriteTarget)
  | store (n group : Nat)
  | conclude (n : Nat)
  | session (n : Nat) (move : SessionMove)
  | work (group executor : Nat) (fails : Bool)
  | collect (n : Nat) (done : List Nat)
  | leave (n : Nat)
  | cancel (n : Nat)
  | settleDetached (n : Nat)
  | drain
  | wake (d : Nat)
  deriving DecidableEq, Repr

namespace StoreService

inductive Role where
  | mutation (operation : StoreOperation)
  | fanout (parent : Nat)
  | readRepair
  | outsider
  | drain
  deriving DecidableEq, Repr

def Role.onBehalf : Role → Bool
  | mutation _ => true
  | fanout _ => true
  | _ => false

def Role.cancellable : Role → Bool
  | fanout _ => false
  | readRepair => false
  | _ => true

inductive Progress where
  | absent
  | placing
  | posting (target : WriteTarget)
  | storing (group : Nat)
  | fanning (pending : List Nat)
  | settling (mutations : List Nat)
  | flushing (writes : List Nat)
  | returned
  | ended
  deriving DecidableEq, Repr

def Progress.live : Progress → Bool
  | absent => false
  | returned => false
  | ended => false
  | _ => true

def Progress.draining : Progress → Bool
  | settling _ => true
  | flushing _ => true
  | returned => true
  | _ => false

end StoreService

structure StoreService where
  gate : Gate
  next : Nat
  role : Nat → StoreService.Role
  progress : Nat → StoreService.Progress
  mutations : List Nat
  pendingWrites : List Nat
  pools : Nat → AsyncThreadPool
  reopened : Nat

namespace StoreService

variable {s : StoreService}

def initial (maxWriters : Nat) : StoreService where
  gate := Gate.opened
  next := 0
  role := fun _ => .outsider
  progress := fun _ => .absent
  mutations := []
  pendingWrites := []
  pools := fun _ => AsyncThreadPool.make maxWriters
  reopened := 0

section

variable (s : StoreService)

def enlist (role : Role) (works : List Progress) : StoreService :=
  { s with
    next := s.next + works.length
    role := fun n => if s.next ≤ n ∧ n < s.next + works.length then role else s.role n
    progress := fun n => if s.next ≤ n then works.getD (n - s.next) .absent else s.progress n }

def setProgress (n : Nat) (progress : Progress) : StoreService :=
  { s with progress := Function.update s.progress n progress }

def close (n : Nat) : StoreService := { s.setProgress n .ended with mutations := s.mutations.filter (· ≠ n) }

def detach (tasks : List Nat) : StoreService := { s with pendingWrites := tasks ++ s.pendingWrites }

def leave (n : Nat) (pending : List Nat) : StoreService := (s.detach pending).close n

def setPool (group : Nat) (pool : AsyncThreadPool) : StoreService :=
  { s with pools := Function.update s.pools group pool }

def inSession (n group : Nat) (a : SessionAction) : StoreService :=
  let pool := (s.pools group).step true a
  let s := s.setPool group pool
  if pool.stages n = .left then s.close n else s

def mayStore (n : Nat) : Bool :=
  match s.role n, s.progress n with
  | .mutation operation, .placing => operation.storesDirectly
  | .outsider, .placing => true
  | _, .posting target => target.mayStore
  | _, _ => false

def isOver (n : Nat) : Bool := s.progress n = .ended

def flush (d : Nat) : StoreService :=
  if s.pendingWrites = [] then s.setProgress d .returned
  else s.setProgress d (.flushing s.pendingWrites)

def drain : StoreService :=
  let t := { s with gate := s.gate.pause true }.enlist .drain [.settling s.mutations]
  if s.mutations = [] then t.flush s.next else t

def wake (d : Nat) : StoreService :=
  match s.progress d with
  | .settling mutations => if mutations.all s.isOver then s.flush d else s
  | .flushing writes => if writes.all s.isOver then s.setProgress d .returned else s
  | _ => s

def cancel (n : Nat) : StoreService :=
  if (s.role n).cancellable then
    match s.progress n with
    | .placing => s.close n
    | .storing group => s.inSession n group (.cancel n)
    | .fanning pending => s.leave n pending
    | .settling _ => s.setProgress n .ended
    | .flushing _ => s.setProgress n .ended
    | _ => s
  else s

def step : StoreAction → StoreService
  | .pause readable => { s with gate := s.gate.pause readable }
  | .resume => { s with gate := s.gate.resume, reopened := s.next }
  | .stopReadRepairs => { s with gate := s.gate.stopReadRepairs }
  | .request operation =>
    match s.gate.admitOperation operation with
    | .error _ => s
    | .ok () =>
      if operation = .read then s
      else { s.enlist (.mutation operation) [.placing] with mutations := s.next :: s.mutations }
  | .readRepair target =>
    if s.gate.acceptingReadRepairs then
      { s.enlist .readRepair [.posting target] with pendingWrites := s.next :: s.pendingWrites }
    else s
  | .outsider => s.enlist .outsider [.placing]
  | .fanOut n targets =>
    match s.role n, s.progress n with
    | .mutation operation, .placing =>
      if operation.fansOut then
        (s.enlist (.fanout n) (targets.map .posting)).setProgress n
          (.fanning (List.range' s.next targets.length))
      else s
    | _, _ => s
  | .store n group =>
    if s.mayStore n then
      (s.setPool group ((s.pools group).step true (.enter n))).setProgress n (.storing group)
    else s
  | .conclude n =>
    match s.progress n with
    | .placing => s.close n
    | .posting _ => s.close n
    | _ => s
  | .session n move =>
    match s.progress n with
    | .storing group => s.inSession n group (move.of n)
    | _ => s
  | .work group executor fails => s.setPool group ((s.pools group).step true (.work executor fails))
  | .collect n done =>
    match s.progress n with
    | .fanning pending =>
      if done.all s.isOver then s.setProgress n (.fanning (pending.filter (· ∉ done))) else s
    | _ => s
  | .leave n =>
    match s.progress n with
    | .fanning pending => s.leave n pending
    | _ => s
  | .cancel n => s.cancel n
  | .settleDetached n => if s.isOver n then { s with pendingWrites := s.pendingWrites.filter (· ≠ n) } else s
  | .drain => s.drain
  | .wake d => s.wake d

def run (acts : List StoreAction) : StoreService := acts.foldl step s

theorem run_append (before after : List StoreAction) :
    s.run (before ++ after) = (s.run before).run after := List.foldl_append

end

theorem progress_enlist_of_lt {n : Nat} (h : n < s.next) (role : Role) (works : List Progress) :
    (s.enlist role works).progress n = s.progress n :=
  if_neg (Nat.not_le.mpr h)

theorem role_enlist_of_lt {n : Nat} (h : n < s.next) (role : Role) (works : List Progress) :
    (s.enlist role works).role n = s.role n :=
  if_neg fun hc => absurd hc.1 (Nat.not_le.mpr h)

end StoreService

end Tourillon
