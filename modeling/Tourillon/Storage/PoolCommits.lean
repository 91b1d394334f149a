import Tourillon.Storage.SessionProvider

namespace Tourillon

open AsyncThreadPool List

def SessionAction.session : SessionAction → Option Nat
  | enter s => some s
  | acquire s _ => some s
  | work _ _ => none
  | resume s => some s
  | request s => some s
  | finish s => some s
  | raise s => some s
  | cancel s => some s

def TxnJob.ends : TxnJob → Bool
  | finish _ => true
  | _ => false

def Stage.idle : Stage → Bool
  | absent => true
  | left => true
  | _ => false

namespace AsyncThreadPool

variable {p p' : AsyncThreadPool} {s s' e : Nat} {a : SessionAction} {write : Bool} {item : WorkItem}

section

variable (p : AsyncThreadPool)

def queuedEnds (s e : Nat) : Nat := (p.queues e).countP fun item => item.session = s && item.job.ends

def committing (s : Nat) : Bool :=
  match p.stages s with
  | .finishing _ false => s ∈ p.returned
  | _ => false

def endsAllowed (s e : Nat) : Nat :=
  if p.stages s = .finishing e false ∨ p.stages s = .left ∧ s ∉ p.returned then 1 else 0

def Ending (s : Nat) : Prop := ∀ e, p.queuedEnds s e ≤ p.endsAllowed s e

def commitsOf (s : Nat) : List (Nat × TxnEvent) := p.log.filter fun x => x.2 = .ended s true

theorem queuedEnds_execute (e s : Nat) (job : TxnJob) (s' e' : Nat) : (p.execute e s job).queuedEnds s' e' =
      p.queuedEnds s' e' + if e' = e ∧ s = s' ∧ job.ends = true then 1 else 0 := by
  unfold queuedEnds execute setQueue
  rcases eq_or_ne e' e with rfl | hne
  · simp [countP_append, countP_singleton]
  · simp [hne]

theorem queuedEnds_dropOps (e s s' e' : Nat) :
    (p.setQueue e (dropOps (p.queues e) s)).queuedEnds s' e' = p.queuedEnds s' e' := by
  unfold queuedEnds setQueue
  rcases eq_or_ne e' e with rfl | hne
  · simp only [Function.update_self, dropOps, countP_map]
    congr 1
    funext item
    dsimp only [Function.comp]
    split <;> rfl
  · simp only [Function.update_of_ne hne]

end

structure Aside (s : Nat) (p p' : AsyncThreadPool) : Prop where
  stage : p'.stages s = p.stages s
  returned : s ∈ p'.returned ↔ s ∈ p.returned
  ends : ∀ e, p'.queuedEnds s e = p.queuedEnds s e

theorem Aside.trans {p'' : AsyncThreadPool} (h : Aside s p p') (h' : Aside s p' p'') : Aside s p p'' := by
  refine ⟨h'.stage.trans h.stage, h'.returned.trans h.returned, ?_⟩
  intro e
  exact (h'.ends e).trans (h.ends e)

theorem Aside.ending (h : Aside s p p') (hp : p.Ending s) : p'.Ending s := by
  intro e
  simp only [h.ends e, endsAllowed, h.stage, h.returned]
  exact hp e

theorem aside_setStage (hne : s ≠ s') (stage : Stage) : Aside s p (p.setStage s' stage) :=
  ⟨by rw [stages_setStage, if_neg hne], Iff.rfl, fun _ => rfl⟩

theorem aside_execute (hne : s ≠ s') (e : Nat) (job : TxnJob) : Aside s p (p.execute e s' job) := by
  refine ⟨rfl, Iff.rfl, ?_⟩
  intro e'
  rw [queuedEnds_execute, if_neg fun h => hne h.2.1.symm, Nat.add_zero]

theorem aside_take (p : AsyncThreadPool) (pick s : Nat) : Aside s p (p.take pick).2 := by
  unfold take
  split <;> exact ⟨rfl, Iff.rfl, fun _ => rfl⟩

theorem aside_dropOps (p : AsyncThreadPool) (e s s' : Nat) : Aside s p (p.setQueue e (dropOps (p.queues e) s')) :=
  ⟨rfl, Iff.rfl, p.queuedEnds_dropOps e s' s⟩

theorem aside_finalize (hne : s ≠ s') (e : Nat) (commit : Bool) : Aside s p (p.finalize e s' commit) :=
  (aside_execute hne e _).trans (aside_setStage hne _)

theorem aside_step (ha : a.session = some s') (hne : s ≠ s') : Aside s p (p.step write a) := by
  have hrefl : Aside s p p := ⟨rfl, Iff.rfl, fun _ => rfl⟩
  have hleave (e : Nat) : Aside s p ((p.release e).setStage s' .left) :=
    ⟨(aside_setStage hne _).stage.trans rfl, Iff.rfl, fun _ => rfl⟩
  cases a with
  | work e fails => cases ha
  | enter s' =>
    cases ha
    dsimp only [step]
    split
    · exact aside_setStage hne _
    · exact hrefl
  | acquire s' pick =>
    cases ha
    dsimp only [step]
    split
    · exact ((p.aside_take pick s).trans (aside_execute hne _ _)).trans (aside_setStage hne _)
    · exact hrefl
  | resume s' =>
    cases ha
    dsimp only [step]
    split
    · exact aside_setStage hne _
    · exact hleave _
    · exact aside_setStage hne _
    · exact hleave _
    · exact hrefl
  | request s' =>
    cases ha
    dsimp only [step]
    split
    · exact (aside_execute hne _ _).trans (aside_setStage hne _)
    · exact hrefl
  | finish s' =>
    cases ha
    dsimp only [step]
    split
    · have hfinal := aside_finalize (p := p) hne ‹_› write
      exact ⟨hfinal.stage, mem_cons.trans (or_iff_right hne), hfinal.ends⟩
    · exact hrefl
  | raise s' =>
    cases ha
    dsimp only [step]
    split
    · exact aside_finalize hne _ _
    · exact hrefl
  | cancel s' =>
    cases ha
    dsimp only [step]
    split
    · exact aside_setStage hne _
    · exact hleave _
    · exact aside_finalize hne _ _
    · exact (p.aside_dropOps _ s s').trans (aside_finalize hne _ _)
    · exact hleave _
    · exact hrefl

theorem Ending.none_queued (h : p.Ending s)
    (hs : ∀ e, ¬ (p.stages s = .finishing e false ∨ p.stages s = .left ∧ s ∉ p.returned)) (e : Nat) :
    p.queuedEnds s e = 0 := by
  have hle := h e
  rw [endsAllowed, if_neg (hs e)] at hle
  exact Nat.le_zero.mp hle

theorem ending_of_none (h : ∀ e, p.queuedEnds s e = 0) : p.Ending s := fun e => (h e).symm ▸ Nat.zero_le _

theorem ending_finalize (h : ∀ e, p.queuedEnds s e = 0) (e : Nat) (commit : Bool)
    (returned : List Nat) : Ending { p.finalize e s commit with returned := returned } s := by
  intro e'
  have hends := queuedEnds_execute p e s (.finish commit) s e'
  rw [h e', Nat.zero_add] at hends
  refine Nat.le_trans (Nat.le_of_eq hends) ?_
  rcases eq_or_ne e' e with rfl | hne
  · refine Nat.le_trans (by split <;> omega) (Nat.le_of_eq (if_pos (.inl ?_)).symm)
    exact (stages_setStage (p.execute e' s (.finish commit)) s s _).trans (if_pos rfl)
  · rw [if_neg fun hc => hne hc.1]
    exact Nat.zero_le _

theorem after_kept {stage : Stage} {fails : Bool} (h : stage = .finishing s' false ∨ stage = .left)
    (hitem : s' ≠ e ∨ ¬ (item.session = s ∧ item.job.ends = true)) : stage.after s e item fails = stage := by
  rcases h with rfl | rfl
  · rcases hitem with hne | hitem
    · apply after_elsewhere
      exact fun hc => hne (Option.some.inj hc)
    · unfold Stage.after
      split
      · rename_i hs
        rcases hjob : item.job with _ | _ | commit
        · simp [Stage.answer]
        · simp [Stage.answer]
        · exact absurd ⟨hs.1.symm, by rw [hjob]; rfl⟩ hitem
      · rfl
  · unfold Stage.after
    split <;> rfl

theorem Worked.endsAllowed_le {rest : List WorkItem} {fails : Bool} (hw : Worked e item rest fails p p')
    (hreturned : s ∈ p'.returned ↔ s ∈ p.returned) {e' : Nat}
    (hitem : e' ≠ e ∨ ¬ (item.session = s ∧ item.job.ends = true)) : p.endsAllowed s e' ≤ p'.endsAllowed s e' := by
  unfold endsAllowed
  split
  · rename_i hs
    have hkept : p'.stages s = p.stages s := (hw.stages s).trans (after_kept (hs.imp id And.left) hitem)
    refine Nat.le_of_eq (if_pos ?_).symm
    rw [hkept, hreturned]
    exact hs
  · exact Nat.zero_le _

theorem returned_work (p : AsyncThreadPool) (e : Nat) (fails : Bool) :
    (p.step write (.work e fails)).returned = p.returned := by
  dsimp only [step]
  split
  · rfl
  · split <;> rfl

theorem Ending.works (h : p.Ending s) (e : Nat) (fails : Bool) : (p.step write (.work e fails)).Ending s := by
  cases hqueue : p.queues e with
  | nil =>
    simp only [step, hqueue]
    exact h
  | cons item rest =>
    obtain ⟨failed, hw⟩ := worked p write fails hqueue
    have hreturned : s ∈ (p.step write (.work e fails)).returned ↔ s ∈ p.returned := by rw [returned_work]
    intro e'
    rcases eq_or_ne e' e with rfl | hne
    · have hcount : p.queuedEnds s e' = (p.step write (.work e' fails)).queuedEnds s e' +
          if (item.session = s && item.job.ends) = true then 1 else 0 := by
        unfold queuedEnds
        rw [hqueue, hw.queue, countP_cons]
      have hle := h e'
      by_cases hitem : item.session = s ∧ item.job.ends = true
      · rw [hcount, if_pos (by simp [hitem])] at hle
        have hone : p.endsAllowed s e' ≤ 1 := by
          unfold endsAllowed
          split <;> omega
        omega
      · rw [hcount, if_neg (by simpa using hitem), Nat.add_zero] at hle
        exact Nat.le_trans hle (hw.endsAllowed_le hreturned (.inr hitem))
    · have hcount : (p.step write (.work e fails)).queuedEnds s e' = p.queuedEnds s e' := by
        unfold queuedEnds
        rw [hw.queues e' hne]
      rw [hcount]
      exact Nat.le_trans (h e') (hw.endsAllowed_le hreturned (.inl hne))

theorem Ending.own_step (h : p.Ending s) (hs : a.session = some s)
    (ha : a = .cancel s → p.committing s = false) : (p.step write a).Ending s := by
  have hnone {stage : Stage} (hstage : p.stages s = stage) (hfinishing : ∀ e, stage ≠ .finishing e false)
      (hleft : stage ≠ .left) : ∀ e, p.queuedEnds s e = 0 := by
    apply h.none_queued
    rintro e (hc | hc)
    · exact hfinishing e (hstage.symm.trans hc)
    · exact hleft (hstage.symm.trans hc.1)
  cases a with
  | work e fails => cases hs
  | enter s' =>
    cases hs
    dsimp only [step]
    split
    · rename_i hstage
      exact ending_of_none (hnone hstage nofun nofun)
    · exact h
  | acquire s' pick =>
    cases hs
    dsimp only [step]
    split
    · rename_i hstage _
      apply ending_of_none
      intro e
      refine (queuedEnds_execute _ _ s .begin s e).trans ?_
      rw [if_neg fun hc => nomatch hc.2.2]
      exact ((p.aside_take pick s).ends e).trans (hnone hstage nofun nofun e)
    · exact h
  | resume s' =>
    cases hs
    dsimp only [step]
    split
    · rename_i hstage
      exact ending_of_none (hnone hstage nofun nofun)
    · rename_i hstage
      exact ending_of_none (hnone hstage nofun nofun)
    · rename_i hstage
      exact ending_of_none (hnone hstage nofun nofun)
    · rename_i hstage
      exact ending_of_none (hnone hstage nofun nofun)
    · exact h
  | request s' =>
    cases hs
    dsimp only [step]
    split
    · rename_i e hstage
      apply ending_of_none
      intro e'
      refine (queuedEnds_execute p e s .op s e').trans ?_
      rw [if_neg fun hc => nomatch hc.2.2, Nat.add_zero]
      exact hnone hstage nofun nofun e'
    · exact h
  | finish s' =>
    cases hs
    dsimp only [step]
    split
    · rename_i e hstage
      exact ending_finalize (hnone hstage nofun nofun) e write _
    · exact h
  | raise s' =>
    cases hs
    dsimp only [step]
    split
    · rename_i e hstage
      exact ending_finalize (hnone hstage nofun nofun) e false _
    · exact h
  | cancel s' =>
    cases hs
    have hspared := ha rfl
    dsimp only [step]
    split
    · rename_i hstage
      exact ending_of_none (hnone hstage nofun nofun)
    · rename_i hstage
      exact ending_of_none (hnone hstage nofun nofun)
    · rename_i e hstage
      exact ending_finalize (hnone hstage nofun nofun) e false _
    · rename_i e answered hstage
      refine ending_finalize (p := p.setQueue e (dropOps (p.queues e) s)) ?_ e false _
      intro e'
      rw [queuedEnds_dropOps]
      exact hnone hstage nofun nofun e'
    · rename_i e answered hstage
      cases answered with
      | true => exact ending_of_none (hnone hstage nofun nofun)
      | false =>
        simp only [committing, hstage, decide_eq_false_iff_not] at hspared
        intro e'
        have hallowed : endsAllowed ((p.release e).setStage s .left) s e' = 1 :=
          if_pos (.inr ⟨(stages_setStage (p.release e) s s .left).trans (if_pos rfl), hspared⟩)
        rw [hallowed]
        refine Nat.le_trans (h e') ?_
        unfold endsAllowed
        split <;> omega
    · exact h

theorem Ending.step (h : p.Ending s) (ha : a = .cancel s → p.committing s = false) : (p.step write a).Ending s := by
  rcases hsession : a.session with _ | s'
  · cases a with
    | work e fails => exact h.works e fails
    | _ => cases hsession
  · rcases eq_or_ne s s' with rfl | hne
    · exact h.own_step hsession ha
    · exact (aside_step hsession hne).ending h

theorem ending_make (maxWorkers s : Nat) : (make maxWorkers).Ending s := ending_of_none fun _ => rfl

theorem stages_of_idle (hidle : (p.stages s).idle = true) (ha : a ≠ .enter s) :
    (p.step write a).stages s = p.stages s := by
  have hcases : p.stages s = .absent ∨ p.stages s = .left := by
    cases hstage : p.stages s with
    | absent => exact .inl rfl
    | left => exact .inr rfl
    | _ =>
      rw [hstage] at hidle
      cases hidle
  rcases hsession : a.session with _ | s'
  · cases a with
    | work e fails =>
      cases hqueue : p.queues e with
      | nil => simp only [step, hqueue]
      | cons item rest =>
        obtain ⟨failed, hw⟩ := worked p write fails hqueue
        rw [hw.stages s]
        apply after_elsewhere
        rcases hcases with hs | hs <;> rw [hs] <;> rintro ⟨⟩
    | _ => cases hsession
  · rcases eq_or_ne s s' with rfl | hne
    · cases a with
      | work e fails => cases hsession
      | enter s' =>
        cases hsession
        cases ha rfl
      | _ =>
        cases hsession
        rcases hcases with hs | hs <;> simp only [step, hs]
    · exact (aside_step hsession hne).stage

theorem log_step (ha : a.session ≠ none) : (p.step write a).log = p.log := by
  cases a with
  | work e fails => cases ha rfl
  | acquire s' pick =>
    dsimp only [step]
    split
    · change (p.take pick).2.log = p.log
      unfold take
      split <;> rfl
    · rfl
  | _ =>
    dsimp only [step]
    split <;> rfl

theorem Ending.unqueued (h : p.Ending s) (hf : p.Faithful) (hidle : (p.stages s).idle = true)
    (hitem : item ∈ p.queues e) (hs : item.session = s) : item.job ≠ .finish true := by
  intro hjob
  have hreturned : s ∈ p.returned := hs ▸ hf.committing e item hitem hjob
  have hnone : p.queuedEnds s e = 0 := by
    apply h.none_queued
    rintro e' (hc | hc)
    · rw [hc] at hidle
      cases hidle
    · exact hc.2 hreturned
  have hpos := countP_eq_zero.mp hnone item hitem
  simp [hs, hjob, TxnJob.ends] at hpos

theorem commitsOf_step (h : p.Ending s) (hf : p.Faithful) (hidle : (p.stages s).idle = true) :
    (p.step write a).commitsOf s = p.commitsOf s := by
  rcases hsession : a.session with _ | s'
  · cases a with
    | work e fails =>
      cases hqueue : p.queues e with
      | nil => simp only [step, hqueue]
      | cons item rest =>
        simp only [step, hqueue]
        generalize (fails || p.refuses write e item) = failed
        split
        · rfl
        · have hnothing : ((item.outcome failed).map (Prod.mk e)).filter
              (fun x => x.2 = .ended s true) = [] := by
            rw [filter_eq_nil_iff]
            intro x hx hended
            obtain ⟨event, hevent, rfl⟩ := mem_map.mp hx
            obtain rfl : event = .ended s true := by simpa using hended
            obtain ⟨hs, hjob⟩ := ended_outcome hevent
            exact h.unqueued hf hidle (hqueue ▸ mem_cons_self ..) hs hjob
          refine (filter_append ..).trans ?_
          rw [hnothing, append_nil]
          rfl
    | _ => cases hsession
  · unfold commitsOf
    rw [log_step (by rw [hsession]; rintro ⟨⟩)]

end AsyncThreadPool

end Tourillon
