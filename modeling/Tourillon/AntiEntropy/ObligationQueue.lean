import Tourillon.AntiEntropy.CourierSpec

namespace Tourillon

open Endian Sequence

structure ObligationQueue where
  capacity : Nat
  items : List ObligationKey
  inflight : Nat
  backlog : Bool
  positive : 1 ≤ capacity

namespace ObligationQueue

variable {q : ObligationQueue} {o : ObligationKey}

def make (capacity : Nat) : Except PyError ObligationQueue :=
  if h : capacity < 1 then .error (.valueError "capacity must be >= 1")
  else .ok ⟨capacity, [], 0, true, Nat.le_of_not_lt h⟩

section

variable (q : ObligationQueue)

def offer (ob : ObligationKey) : ObligationQueue :=
  if ob ∈ q.items then q
  else if q.capacity ≤ q.items.length then { q with backlog := true }
  else { q with items := q.items ++ [ob] }

def submit (obligations : List ObligationKey) : ObligationQueue := obligations.foldl offer q

def take (limit : Nat) : List ObligationKey × ObligationQueue :=
  (q.items.take limit,
    { q with items := q.items.drop limit, inflight := q.inflight + (q.items.take limit).length })

def settle (count : Nat) : ObligationQueue := { q with inflight := q.inflight - count }

def Holds (ob : ObligationKey) : Prop := ob ∈ q.items ∨ q.backlog = true

end

theorem Holds.offer (h : q.Holds o) (ob : ObligationKey) : (q.offer ob).Holds o := by
  unfold ObligationQueue.offer
  split
  · exact h
  · split
    · exact .inr rfl
    · exact h.imp_left (List.mem_append_left _)

theorem holds_offer_self (q : ObligationQueue) (ob : ObligationKey) : (q.offer ob).Holds ob := by
  unfold ObligationQueue.offer
  split
  · rename_i hin
    exact .inl hin
  · split
    · exact .inr rfl
    · exact .inl (List.mem_append_right _ (List.mem_singleton.mpr rfl))

theorem Holds.submit (h : q.Holds o) (obligations : List ObligationKey) : (q.submit obligations).Holds o := by
  induction obligations generalizing q with
  | nil => exact h
  | cons ob obligations ih => exact ih (h.offer ob)

theorem holds_submit {obligations : List ObligationKey} (h : o ∈ obligations) : (q.submit obligations).Holds o := by
  induction obligations generalizing q with
  | nil => cases h
  | cons ob obligations ih =>
    rcases List.mem_cons.mp h with rfl | hrest
    · exact (holds_offer_self q o).submit obligations
    · exact ih hrest

end ObligationQueue

structure DeliveryLoop extends Deployment where
  node : String
  batch : Nat
  batchBytes : Nat

inductive Errand where
  | fetching (view : ReplicaView)
  | contacting (records : List (Key × Record)) (rest : List (String × List ObligationKey))
      (obsolete : List ObligationKey)
  | pushing (chunks : List (List ObligationKey)) (records : List (Key × Record))
      (rest : List (String × List ObligationKey)) (obsolete : List ObligationKey)
  | removing (runs : List (Nat × List ObligationKey)) (chunks : List (List ObligationKey))
      (records : List (Key × Record)) (rest : List (String × List ObligationKey))
      (obsolete : List ObligationKey)
  | dropping (runs : List (Nat × List ObligationKey))

inductive WorkerStage where
  | looping
  | delivering (batch : List ObligationKey) (errand : Errand)
  | reloading (group : Nat) (after : Option Bytes) (found pending : Bool)
  | waiting (timed : Bool)
  | sleeping

structure Dispatcher where
  groups : Nat → GroupStorage
  queue : ObligationQueue
  worker : Option WorkerStage
  late : List (Nat × List ObligationKey)
  announced : ObligationKey → Bool

inductive DispatchAction where
  | persist (record : Record) (storable : Storable record) (targets : List String) (faults : Faults)
  | write (record : Record) (storable : Storable record) (faults : Faults)
  | apply (pid : Nat) (records : List Record) (storable : ∀ r ∈ records, Storable r) (faults : Faults)
  | collect (group : Nat) (keys : List Key) (dryRun : Bool) (faults : Faults)
  | submit (obligations : List ObligationKey)
  | resume (view : ReplicaView)
  | fetched (records : List (Key × Record))
  | contacted (eligible : Bool)
  | pushed (acknowledged : Bool)
  | removed (faults : Faults)
  | paged (deferred : String → Bool)
  | wake
  | rested
  | raised
  | stop
  | start
  | land (index : Nat) (faults : Faults)
  | reboot

namespace DeliveryLoop

variable (l : DeliveryLoop)

def groupFor (pid : Nat) : Nat := l.partitioner.groupFor pid

def owed (view : ReplicaView) (ob : ObligationKey) : Bool :=
  ob.target ≠ l.node && view.covers [ob.key.pid] && view.isReplica ob.key.pid ob.target

def removalRuns (obligations : List ObligationKey) : List (Nat × List ObligationKey) :=
  groupRuns (fun ob => l.groupFor ob.key.pid)
    (obligations.insertionSort fun a b => a.key.pid ≤ b.key.pid)

def afterRest (records : List (Key × Record)) (rest : List (String × List ObligationKey))
    (obsolete : List ObligationKey) : Option Errand :=
  if rest ≠ [] then some (.contacting records rest obsolete)
  else if obsolete ≠ [] then some (.dropping (l.removalRuns obsolete))
  else none

def afterChunks (chunks : List (List ObligationKey)) (records : List (Key × Record))
    (rest : List (String × List ObligationKey)) (obsolete : List ObligationKey) : Option Errand :=
  if chunks ≠ [] then some (.pushing chunks records rest obsolete)
  else l.afterRest records rest obsolete

def afterRuns (runs : List (Nat × List ObligationKey)) (chunks : List (List ObligationKey))
    (records : List (Key × Record)) (rest : List (String × List ObligationKey))
    (obsolete : List ObligationKey) : Option Errand :=
  if runs ≠ [] then some (.removing runs chunks records rest obsolete)
  else l.afterChunks chunks records rest obsolete

def chunksFor (obligations : List ObligationKey) (records : List (Key × Record)) :
    Except PyError (List (List ObligationKey)) := do
  let chunks ← (groupRuns (fun ob => ob.key.pid) obligations).mapM fun run =>
    obligationChunks run.2 records l.batchBytes
  return chunks.flatten

end DeliveryLoop

namespace Dispatcher

section

variable (s : Dispatcher)

def withGroup (group : Nat) (g : GroupStorage) : Dispatcher :=
  { s with groups := fun i => if i = group then g else s.groups i }

def raiseBacklog : Dispatcher := { s with queue := { s.queue with backlog := true } }

def continueWith (batch : List ObligationKey) : Option Errand → Dispatcher
  | some errand => { s with worker := some (.delivering batch errand) }
  | none => { s with queue := s.queue.settle batch.length, worker := some .looping }

def fail : Dispatcher :=
  match s.worker with
  | some (.delivering batch _) =>
    { s with
      queue := { s.queue.settle batch.length with backlog := true }
      worker := some .sleeping }
  | some (.reloading _ _ _ _) =>
    { s with queue := { s.queue with backlog := true }, worker := some .sleeping }
  | _ => s

def reloaded (q : ObligationQueue) : Dispatcher :=
  { s with
    queue := q
    worker := some (if q.items = [] then .waiting q.backlog else .looping) }

end

variable [Blake2b] (l : DeliveryLoop)

section

variable (s : Dispatcher)

def resume (view : ReplicaView) : Dispatcher :=
  if s.queue.items ≠ [] then
    { s with
      queue := (s.queue.take l.batch).2
      worker := some (.delivering (s.queue.take l.batch).1 (.fetching view)) }
  else if s.queue.backlog then
    { s with
      queue := { s.queue with backlog := false }
      worker := some (.reloading 0 none false false) }
  else { s with worker := some (.waiting false) }

def fetched (batch : List ObligationKey) (view : ReplicaView) (records : List (Key × Record)) : Dispatcher :=
  let owed := batch.eraseDups.filter (l.owed view)
  let obsolete := batch.filter fun ob => ob ∉ owed
  let s := if ∃ ob ∈ owed, records.lookup ob.key = none then s.raiseBacklog else s
  match deliveryOrder (owed.filter fun ob => (records.lookup ob.key).isSome) with
  | .error _ => s.fail
  | .ok ready => s.continueWith batch (l.afterRest records (groupRuns ObligationKey.target ready) obsolete)

def contacted (batch obligations : List ObligationKey) (records : List (Key × Record))
    (rest : List (String × List ObligationKey)) (obsolete : List ObligationKey) (eligible : Bool) :
    Dispatcher :=
  if !eligible then s.raiseBacklog.continueWith batch (l.afterRest records rest obsolete)
  else match l.chunksFor obligations records with
    | .error _ => s.fail
    | .ok chunks => s.continueWith batch (l.afterChunks chunks records rest obsolete)

def removed (batch : List ObligationKey) (run : Nat × List ObligationKey) (next : Option Errand)
    (faults : Faults) : Dispatcher :=
  match forgetObligations faults run.2 (s.groups run.1) with
  | (.ok (), g) => (s.withGroup run.1 g).continueWith batch next
  | (.error _, g) => (s.withGroup run.1 g).fail

def paged (group : Nat) (after : Option Bytes) (found pending : Bool) (deferred : String → Bool) : Dispatcher :=
  match (s.groups group).obligationPage after l.batch with
  | .error _ => s.fail
  | .ok (page, next) =>
    let ready := page.filter fun ob => !deferred ob.target
    let found := found || decide (ready.length < page.length)
    let q := s.queue.submit ready
    if next ≠ none ∧ q.backlog = false then
      { s with queue := q, worker := some (.reloading group next found pending) }
    else if q.backlog then s.reloaded q
    else if group + 1 < l.partitioner.totalGroups then
      { s with queue := q, worker := some (.reloading (group + 1) none false (found || pending)) }
    else s.reloaded { q with backlog := found || pending }

def stop : Dispatcher :=
  match s.worker with
  | some (.delivering batch errand) =>
    { s with
      queue := s.queue.settle batch.length
      worker := none
      late := match errand with
        | .removing runs _ _ _ _ => runs.take 1 ++ s.late
        | .dropping runs => runs.take 1 ++ s.late
        | _ => s.late }
  | _ => { s with worker := none }

def step : DispatchAction → Dispatcher
  | .persist record _ targets faults =>
    if l.groupFor record.key.pid < l.partitioner.totalGroups then
      match oblige faults l.node record targets (s.groups (l.groupFor record.key.pid)) with
      | (.ok obligations, g) =>
        { s.withGroup (l.groupFor record.key.pid) g with
          announced := fun o => s.announced o &&
            (o ∉ obligations || (s.groups (l.groupFor record.key.pid)).Owes o) }
      | (.error _, g) => s.withGroup (l.groupFor record.key.pid) g
    else s
  | .write record _ faults =>
    s.withGroup (l.groupFor record.key.pid)
      (localWrite faults record (s.groups (l.groupFor record.key.pid))).2
  | .apply pid records _ faults =>
    s.withGroup (l.groupFor pid)
      (applyRecords (l.policy l.node) faults records (s.groups (l.groupFor pid))).2
  | .collect group keys dryRun faults =>
    s.withGroup group (collectBatch (l.policy l.node) faults keys dryRun (s.groups group)).2
  | .submit obligations =>
    { s with
      queue := s.queue.submit obligations
      announced := fun o => s.announced o || o ∈ obligations }
  | .resume view =>
    match s.worker with
    | some .looping => s.resume l view
    | _ => s
  | .fetched records =>
    match s.worker with
    | some (.delivering batch (.fetching view)) => s.fetched l batch view records
    | _ => s
  | .contacted eligible =>
    match s.worker with
    | some (.delivering batch (.contacting records (target :: rest) obsolete)) =>
      s.contacted l batch target.2 records rest obsolete eligible
    | _ => s
  | .pushed acknowledged =>
    match s.worker with
    | some (.delivering batch (.pushing (chunk :: chunks) records rest obsolete)) =>
      if acknowledged then
        s.continueWith batch (l.afterRuns (l.removalRuns chunk) chunks records rest obsolete)
      else s.raiseBacklog.continueWith batch (l.afterRest records rest obsolete)
    | _ => s
  | .removed faults =>
    match s.worker with
    | some (.delivering batch (.removing (run :: runs) chunks records rest obsolete)) =>
      s.removed batch run (l.afterRuns runs chunks records rest obsolete) faults
    | some (.delivering batch (.dropping (run :: runs))) =>
      s.removed batch run (if runs ≠ [] then some (.dropping runs) else none) faults
    | _ => s
  | .paged deferred =>
    match s.worker with
    | some (.reloading group after found pending) => s.paged l group after found pending deferred
    | _ => s
  | .wake =>
    match s.worker with
    | some (.waiting timed) => if timed || s.queue.items ≠ [] then { s with worker := some .looping } else s
    | _ => s
  | .rested =>
    match s.worker with
    | some .sleeping => { s with worker := some .looping }
    | _ => s
  | .raised => s.fail
  | .stop => s.stop
  | .start =>
    match s.worker with
    | none => { s with worker := some .looping }
    | some _ => s
  | .land index faults =>
    match s.late[index]? with
    | some run =>
      { s.withGroup run.1 (forgetObligations faults run.2 (s.groups run.1)).2 with
        late := s.late.eraseIdx index }
    | none => s
  | .reboot =>
    { s with
      queue := { s.queue with items := [], inflight := 0, backlog := true }
      worker := none
      late := []
      announced := fun _ => true }

end

def boot (q : ObligationQueue) : Dispatcher :=
  { groups := fun _ => .empty
    queue := { q with items := [], inflight := 0, backlog := true }
    worker := none
    late := []
    announced := fun _ => true }

def run (s : Dispatcher) (actions : List DispatchAction) : Dispatcher := actions.foldl (step l) s

end Dispatcher

end Tourillon
