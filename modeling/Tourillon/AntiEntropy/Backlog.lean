import Tourillon.AntiEntropy.Discharge
import Tourillon.AntiEntropy.Stranded
import Tourillon.Library.Machine

namespace Tourillon

open Sequence Dispatcher List

namespace Dispatcher

variable [Blake2b] {l : DeliveryLoop} {s : Dispatcher}

def interrupts (s : Dispatcher) : DispatchAction → Bool
  | .stop =>
    match s.worker with
    | some (.delivering _ _) => !s.queue.backlog
    | some (.reloading _ _ _ _) => !s.queue.backlog
    | _ => false
  | _ => false

theorem Tracked.stops (h : Tracked l s) (hcalm : s.interrupts .stop = false) : Tracked l s.stop := by
  have hheld (i : Nat) (o : ObligationKey) (hacc : s.Accounted i o) : s.queue.Holds o := by
    rcases hacc with hheld | hpursued
    · exact hheld
    · unfold Pursues at hpursued
      unfold interrupts at hcalm
      split at hpursued
      · rename_i hw
        rw [hw] at hcalm
        exact .inr (by simpa using hcalm)
      · rename_i hw
        rw [hw] at hcalm
        exact .inr (by simpa using hcalm)
      · exact absurd hpursued id
  unfold stop
  split
  · exact h.goes rfl rfl (orderly_idle nofun nofun) fun i o _ _ hacc => .inl (hheld i o hacc)
  · exact h.goes rfl rfl (orderly_idle nofun nofun) fun i o _ _ hacc => .inl (hheld i o hacc)

theorem Tracked.wakes (h : Tracked l s) {stage : Option WorkerStage} (hw : s.worker = stage)
    (hidle : ∀ i o, ¬ Pursues stage i o) : Tracked l { s with worker := some .looping } := by
  refine h.goes rfl rfl (orderly_idle nofun nofun) ?_
  intro i o _ _ hacc
  rw [Accounted, hw] at hacc
  exact .inl (hacc.resolve_right (hidle i o))

theorem Tracked.step (h : Tracked l s) (a : DispatchAction) (hcalm : s.interrupts a = false) :
    Tracked l (s.step l a) := by
  cases a with
  | persist record storable targets faults =>
    unfold Dispatcher.step
    dsimp only
    split
    · rename_i hgroup
      obtain ⟨hclean, hcases⟩ := oblige_spec faults l.node targets
        (h.clean (l.groupFor record.key.pid)) storable
      rcases hcases with ⟨e, herror⟩ | ⟨obligations, hok, _, hadded⟩
      · rw [herror] at hclean ⊢
        exact h.shrinks hclean fun o ho => ho
      · have hpersists := h.persists storable targets faults hgroup hadded
        have hpair : oblige faults l.node record targets (s.groups (l.groupFor record.key.pid)) =
            (.ok obligations, (oblige faults l.node record targets (s.groups (l.groupFor record.key.pid))).2) :=
          Prod.ext hok rfl
        rw [hpair]
        exact hpersists
    · exact h
  | write record storable faults =>
    obtain ⟨hclean, hcases⟩ := localWrite_spec faults l.node
      (h.clean (l.groupFor record.key.pid)) storable
    refine h.shrinks hclean ?_
    intro o ho
    rcases hcases with ⟨e, herror⟩ | ⟨_, hadded⟩
    · rw [herror] at ho
      exact ho
    · exact ((hadded.owes o).mp ho).resolve_right (not_mem_nil)
  | apply pid records storable faults =>
    obtain ⟨hclean, hcases⟩ := applyRecords_spec (l.policy l.node) faults l.node
      (h.clean (l.groupFor pid)) storable
    refine h.shrinks hclean ?_
    intro o ho
    rcases hcases with ⟨e, herror⟩ | ⟨outcomes, selected, _, _, hadded⟩
    · rw [herror] at ho
      exact ho
    · exact ((hadded.owes o).mp ho).resolve_right (not_mem_nil)
  | collect group keys dryRun faults =>
    obtain ⟨hclean, hcases⟩ := collectBatch_spec (l.policy l.node) faults keys dryRun (h.clean group)
    refine h.shrinks hclean ?_
    intro o ho
    rcases hcases with ⟨e, herror⟩ | ⟨result, dropped, _, _, hdropped⟩
    · rw [herror] at ho
      exact ho
    · exact (hdropped.owes o).mp ho
  | submit obligations =>
    refine ⟨h.clean, h.placed, h.orderly, ?_⟩
    intro i o ho ha
    rcases Bool.or_eq_true_iff.mp ha with hbefore | hnow
    · exact (h.accounted i o ho hbefore).imp_left fun hheld => hheld.submit obligations
    · exact .inl (ObligationQueue.holds_submit (of_decide_eq_true hnow))
  | resume view =>
    unfold Dispatcher.step
    dsimp only
    split
    · rename_i hw
      exact h.resumes hw view
    · exact h
  | fetched records =>
    unfold Dispatcher.step
    dsimp only
    split
    · rename_i batch view hw
      exact h.fetches hw records
    · exact h
  | contacted eligible =>
    unfold Dispatcher.step
    dsimp only
    split
    · rename_i batch records target rest obsolete hw
      exact h.contacts hw eligible
    · exact h
  | pushed acknowledged =>
    unfold Dispatcher.step
    dsimp only
    split
    · rename_i batch chunk chunks records rest obsolete hw
      split
      · exact (h.pushes hw).1
      · exact (h.pushes hw).2
    · exact h
  | removed faults =>
    unfold Dispatcher.step
    dsimp only
    split
    · rename_i batch run runs chunks records rest obsolete hw
      have hrouted := h.orderly.routed _ _ hw
      refine h.removes hw ?_ (hrouted run mem_cons_self)
        (l.awaits_afterRuns batch (fun r hr => hrouted r (mem_cons_of_mem _ hr)) chunks records
          rest obsolete) faults
      intro o ho
      have hremaining : o ∈ run.2 ++ (runs.flatMap Prod.snd ++
          (chunks.flatten ++ (rest.flatMap Prod.snd ++ obsolete))) := by
        rw [← append_assoc]
        exact ho
      exact mem_append.mp hremaining
    · rename_i batch run runs hw
      have hrouted := h.orderly.routed _ _ hw
      have hnext : l.Awaits batch (runs.flatMap Prod.snd)
          (if runs ≠ [] then some (.dropping runs) else none) := by
        split
        · refine ⟨?_, fun o ho => ⟨_, rfl, ho⟩⟩
          rintro errand ⟨⟩
          exact fun r hr => hrouted r (mem_cons_of_mem _ hr)
        · rename_i hempty
          rw [not_not.mp hempty]
          exact ⟨nofun, nofun⟩
      exact h.removes hw (fun o ho => mem_append.mp ho) (hrouted run mem_cons_self)
        hnext faults
    · exact h
  | paged deferred =>
    unfold Dispatcher.step
    dsimp only
    split
    · rename_i group after found pending hw
      exact h.pages hw deferred
    · exact h
  | wake =>
    unfold Dispatcher.step
    dsimp only
    split
    · rename_i timed hw
      split
      · exact h.wakes hw fun _ _ => id
      · exact h
    · exact h
  | rested =>
    unfold Dispatcher.step
    dsimp only
    split
    · rename_i hw
      exact h.wakes hw fun _ _ => id
    · exact h
  | raised => exact h.fails
  | stop => exact h.stops hcalm
  | start =>
    unfold Dispatcher.step
    dsimp only
    split
    · rename_i hw
      exact h.wakes hw fun _ _ => id
    · exact h
  | land index faults =>
    unfold Dispatcher.step
    dsimp only
    split
    · rename_i run hrun
      exact (h.forgets faults run).goes rfl rfl (h.forgets faults run).orderly
        fun _ _ _ _ hacc => hacc
    · exact h
  | reboot => exact ⟨h.clean, h.placed, orderly_idle nofun nofun, fun _ _ _ _ => .inl (.inr rfl)⟩

theorem tracked_boot (l : DeliveryLoop) (q : ObligationQueue) : Tracked l (boot q) where
  clean _ := clean_empty
  placed i o ho := by cases ho.2
  orderly := orderly_idle nofun nofun
  accounted i o ho := by cases ho.2

theorem no_obligation_stranded (l : DeliveryLoop) (q : ObligationQueue) (actions : List DispatchAction)
    (h : Machine.Along (step l) (fun s a => s.interrupts a = false) (boot q) actions) (timed : Bool)
    (hwait : ((boot q).run l actions).worker = some (.waiting timed)) (group : Nat)
    (o : ObligationKey) (ho : (((boot q).run l actions).groups group).Owes o)
    (ha : ((boot q).run l actions).announced o = true) :
    o ∈ ((boot q).run l actions).queue.items ∨ ((boot q).run l actions).queue.backlog = true := by
  have htracked : Tracked l ((boot q).run l actions) :=
    h.invariant (fun _ a hcalm hs => hs.step a hcalm) (tracked_boot l q)
  have hacc := htracked.accounted group o ho ha
  rw [Accounted, hwait] at hacc
  exact hacc.resolve_right id

end Dispatcher

namespace Sample

def deliveryLoop : DeliveryLoop where
  partitioner := ⟨1, 0, Nat.one_pos⟩
  policy := fun _ => ⟨1, Nat.one_pos⟩
  node := "a"
  batch := 16
  batchBytes := 4096

def hotQueue : ObligationQueue := ⟨4096, [], 0, true, limits.bytesPositive⟩

def announceDebt : List DispatchAction :=
  [.persist (version 5) (storable_version 5) ["b"] faultless, .submit [debt 5]]

def firstReload : List DispatchAction := [.start, .resume (view ["a", "b"]), .paged fun _ => false]

def restartMidway : List DispatchAction :=
  firstReload ++ announceDebt ++
    [.wake, .resume (view ["a", "b"]), .stop, .start, .resume (view ["a", "b"])]

theorem stopped_delivery_strands_debt :
    ((boot hotQueue).run deliveryLoop restartMidway).worker = some (.waiting false) ∧
    (((boot hotQueue).run deliveryLoop restartMidway).groups 0).Owes (debt 5) ∧
    ((boot hotQueue).run deliveryLoop restartMidway).announced (debt 5) = true ∧
    debt 5 ∉ ((boot hotQueue).run deliveryLoop restartMidway).queue.items ∧
    ((boot hotQueue).run deliveryLoop restartMidway).queue.backlog = false := by
  refine ⟨rfl, ?_, ?_, ?_, rfl⟩
  · decide +kernel
  · decide +kernel
  · decide +kernel

def deferredReload : List DispatchAction :=
  firstReload ++ announceDebt ++
    [.wake, .resume (view ["a", "b"]), .fetched [], .resume (view ["a", "b"]), .paged fun _ => true]

theorem deferred_debt_keeps_backlog : debt 5 ∈ ((boot hotQueue).run deliveryLoop deferredReload).queue.items ∨
      ((boot hotQueue).run deliveryLoop deferredReload).queue.backlog = true := by
  refine no_obligation_stranded deliveryLoop hotQueue deferredReload ?_ true ?_ 0
    (debt 5) ?_ ?_
  · decide +kernel
  · rfl
  · decide +kernel
  · decide +kernel

end Sample

end Tourillon
