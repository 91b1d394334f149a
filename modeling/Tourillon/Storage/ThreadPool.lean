import Mathlib.Data.List.Induction
import Mathlib.Logic.Function.Basic

namespace Tourillon

open List

inductive TxnJob where
  | begin
  | op
  | finish (commit : Bool)
  deriving DecidableEq, Repr

structure WorkItem where
  session : Nat
  job : TxnJob
  cancelled : Bool
  deriving DecidableEq, Repr

inductive TxnEvent where
  | begun (session : Nat)
  | ended (session : Nat) (committed : Bool)
  deriving DecidableEq, Repr

namespace TxnEvent

variable {events : List TxnEvent} {current : Option Nat}

def follow : Option Nat → TxnEvent → Option (Option Nat)
  | none, begun s => some (some s)
  | some s, ended s' _ => if s = s' then some none else none
  | _, _ => none

def replay (events : List TxnEvent) : Option (Option Nat) := events.foldlM follow none

def ends (s : Nat) : TxnEvent → Bool
  | ended s' _ => s' = s
  | begun _ => false

def pending (events : List TxnEvent) : TxnEvent → Bool
  | begun s => !events.any (ends s)
  | ended _ _ => false

def stillOpen (events : List TxnEvent) : Bool := events.any (pending events)

def alternate : List TxnEvent → Bool
  | [] => true
  | [begun _] => true
  | begun s :: ended s' _ :: rest => s = s' && alternate rest
  | _ => false

variable (h : replay events = some current)

include h

theorem alternate_of_replay : alternate events = true := by
  fun_induction alternate events with
  | case1 => rfl
  | case2 s => rfl
  | case3 s s' committed rest ih =>
    rcases eq_or_ne s s' with rfl | hne
    · rw [decide_eq_true rfl, Bool.true_and]
      apply ih
      simpa [replay, follow] using h
    · simp [replay, follow, hne] at h
  | case4 events hnil hone hpair =>
    cases events with
    | nil => cases hnil rfl
    | cons event rest =>
      cases event with
      | ended s committed => cases h
      | begun s =>
        cases rest with
        | nil => cases hone s rfl
        | cons event rest =>
          cases event with
          | ended s' committed => cases hpair s s' committed rest rfl
          | begun s' => cases h

theorem replay_append (more : List TxnEvent) : replay (events ++ more) = more.foldlM follow current := by
  rw [replay] at h
  rw [replay, foldlM_append, h]
  rfl

theorem ended_of_replay {s : Nat} (hin : begun s ∈ events) :
    current = some s ∨ ∃ committed, ended s committed ∈ events := by
  induction events using reverseRecOn generalizing current with
  | nil => cases hin
  | append_singleton events event ih =>
    rw [replay, foldlM_append, Option.bind_eq_bind, Option.bind_eq_some_iff] at h
    obtain ⟨earlier, hearlier, hevent⟩ := h
    rw [foldlM_cons, Option.bind_eq_bind, Option.bind_eq_some_iff] at hevent
    obtain ⟨later, hfollow, hlater⟩ := hevent
    cases hlater
    rcases mem_append.mp hin with hold | hnew
    · rcases ih hearlier hold with rfl | ⟨committed, hended⟩
      · cases event with
        | begun s' => cases hfollow
        | ended s' committed =>
          rcases eq_or_ne s s' with rfl | hne
          · exact .inr ⟨committed, mem_append_right _ (mem_singleton_self _)⟩
          · simp [follow, hne] at hfollow
      · exact .inr ⟨committed, mem_append_left _ hended⟩
    · cases mem_singleton.mp hnew
      cases earlier with
      | none => exact .inl (Option.some.inj hfollow).symm
      | some _ => cases hfollow

end TxnEvent

def WorkItem.outcome (item : WorkItem) (fails : Bool) : List TxnEvent :=
  match item.job with
  | .begin => if fails then [] else [.begun item.session]
  | .op => []
  | .finish commit => [.ended item.session (commit && !fails)]

inductive Stage where
  | absent
  | waiting
  | opening (executor : Nat) (answer : Option Bool)
  | running (executor : Nat)
  | awaiting (executor : Nat) (answered : Bool)
  | finishing (executor : Nat) (answered : Bool)
  | left
  deriving DecidableEq, Repr

namespace Stage

def executor : Stage → Option Nat
  | opening e _ => some e
  | running e => some e
  | awaiting e _ => some e
  | finishing e _ => some e
  | _ => none

def answer (e : Nat) (job : TxnJob) (ok : Bool) : Stage → Stage
  | opening e' none => if e' = e ∧ job = .begin then opening e' (some ok) else opening e' none
  | awaiting e' false => awaiting e' (e' = e ∧ job = .op)
  | finishing e' false => finishing e' (e' = e ∧ job ≠ .begin ∧ job ≠ .op)
  | stage => stage

def isOpening : Stage → Bool
  | opening _ answer => answer ≠ some false
  | _ => false

end Stage

structure AsyncThreadPool where
  sema : Nat
  workers : Nat
  free : List Nat
  busy : List Nat
  queues : Nat → List WorkItem
  stages : Nat → Stage
  returned : List Nat
  log : List (Nat × TxnEvent)

inductive SessionAction where
  | enter (s : Nat)
  | acquire (s : Nat) (pick : Nat)
  | work (e : Nat) (fails : Bool)
  | resume (s : Nat)
  | request (s : Nat)
  | finish (s : Nat)
  | raise (s : Nat)
  | cancel (s : Nat)

namespace AsyncThreadPool

def make (maxWorkers : Nat) : AsyncThreadPool :=
  ⟨maxWorkers, 0, [], [], fun _ => [], fun _ => .absent, [], []⟩

section

variable (p : AsyncThreadPool)

def setStage (s : Nat) (stage : Stage) : AsyncThreadPool :=
  { p with stages := Function.update p.stages s stage }

def setQueue (e : Nat) (items : List WorkItem) : AsyncThreadPool :=
  { p with queues := Function.update p.queues e items }

def execute (e s : Nat) (job : TxnJob) : AsyncThreadPool := p.setQueue e (p.queues e ++ [⟨s, job, false⟩])

def pop (pick : Nat) : Option Nat := if pick ∈ p.free then some pick else p.free.head?

def take (pick : Nat) : Nat × AsyncThreadPool :=
  match p.pop pick with
  | some e => (e, { p with sema := p.sema - 1, free := p.free.erase e, busy := e :: p.busy })
  | none => (p.workers,
      { p with sema := p.sema - 1, workers := p.workers + 1, busy := p.workers :: p.busy })

def release (e : Nat) : AsyncThreadPool :=
  { p with sema := p.sema + 1, busy := p.busy.erase e, free := e :: p.free }

def perform (e : Nat) (item : WorkItem) (fails : Bool) : AsyncThreadPool :=
  { p with log := p.log ++ (item.outcome fails).map (Prod.mk e) }

def respond (e : Nat) (item : WorkItem) (ok : Bool) : AsyncThreadPool :=
  p.setStage item.session ((p.stages item.session).answer e item.job ok)

end

def dropOps (items : List WorkItem) (s : Nat) : List WorkItem :=
  items.map fun item => if item.session = s ∧ item.job = .op then { item with cancelled := true } else item

def finalize (p : AsyncThreadPool) (e s : Nat) (commit : Bool) : AsyncThreadPool :=
  (p.execute e s (.finish commit)).setStage s (.finishing e false)

def eventsOf (p : AsyncThreadPool) (e : Nat) : List TxnEvent := (p.log.filter fun x => x.1 = e).map Prod.snd

def refuses (write : Bool) (p : AsyncThreadPool) (e : Nat) (item : WorkItem) : Bool :=
  write && item.job = .begin && TxnEvent.stillOpen (p.eventsOf e)

def step (write : Bool) (p : AsyncThreadPool) : SessionAction → AsyncThreadPool
  | .enter s =>
    match p.stages s with
    | .absent => p.setStage s .waiting
    | _ => p
  | .acquire s pick =>
    match p.stages s, p.sema with
    | .waiting, _ + 1 =>
      let (e, p) := p.take pick
      (p.execute e s .begin).setStage s (.opening e none)
    | _, _ => p
  | .work e fails =>
    match p.queues e with
    | [] => p
    | item :: rest =>
      if item.cancelled then p.setQueue e rest
      else
        let failed := fails || p.refuses write e item
        ((p.setQueue e rest).perform e item failed).respond e item (!failed)
  | .resume s =>
    match p.stages s with
    | .opening e (some true) => p.setStage s (.running e)
    | .opening e (some false) => (p.release e).setStage s .left
    | .awaiting e true => p.setStage s (.running e)
    | .finishing e true => (p.release e).setStage s .left
    | _ => p
  | .request s =>
    match p.stages s with
    | .running e => (p.execute e s .op).setStage s (.awaiting e false)
    | _ => p
  | .finish s =>
    match p.stages s with
    | .running e => { p.finalize e s write with returned := s :: p.returned }
    | _ => p
  | .raise s =>
    match p.stages s with
    | .running e => p.finalize e s false
    | _ => p
  | .cancel s =>
    match p.stages s with
    | .waiting => p.setStage s .left
    | .opening e _ => (p.release e).setStage s .left
    | .running e => p.finalize e s false
    | .awaiting e _ => (p.setQueue e (dropOps (p.queues e) s)).finalize e s false
    | .finishing e _ => (p.release e).setStage s .left
    | _ => p

end AsyncThreadPool

end Tourillon
