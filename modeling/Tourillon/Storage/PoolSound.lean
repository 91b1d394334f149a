import Tourillon.Storage.PoolShape

namespace Tourillon

open Stage TxnEvent

namespace AsyncThreadPool

variable {p p' : AsyncThreadPool} {maxWorkers s e : Nat} {stage : Stage} {item : WorkItem}

structure SameRoster (p p' : AsyncThreadPool) : Prop where
  sema : p'.sema = p.sema
  workers : p'.workers = p.workers
  free : p'.free = p.free
  busy : p'.busy = p.busy

theorem Roster.same (h : p.Roster maxWorkers) (hr : SameRoster p p') : p'.Roster maxWorkers := by
  obtain ⟨hpermits, hbounded, hcreated⟩ := h
  obtain ⟨hsema, hworkers, hfree, hbusy⟩ := hr
  refine ⟨?_, ?_, ?_⟩
  · rw [hsema, hbusy]
    exact hpermits
  · rw [hworkers]
    exact hbounded
  · rw [hfree, hbusy, hworkers]
    exact hcreated

theorem Sound.known (h : p.Sound maxWorkers) (hat : (p.stages s).executor = some e) : e < p.workers := by
  have hbusy := (h.holder e).mpr ⟨s, hat⟩
  exact List.mem_range.mp (h.created.subset (List.mem_append_right _ hbusy))

theorem Sound.advance (h : p.Sound maxWorkers) (hr : SameRoster p p') (ht : Touches s e p p')
    (hat : (p.stages s).executor = some e) (hat' : (p'.stages s).executor = some e)
    (hfits : ∀ current, replay (p.eventsOf e) = some current → Fits s (p.stages s) current (p.queues e) →
      ∃ current', replay (p'.eventsOf e) = some current' ∧
        Fits s (p'.stages s) current' (p'.queues e)) : p'.Sound maxWorkers := by
  have hexecutor (s' : Nat) : (p'.stages s').executor = (p.stages s').executor := by
    rcases eq_or_ne s' s with rfl | hne
    · rw [hat, hat']
    · rw [ht.stages s' hne]
  refine ⟨h.toRoster.same hr, ?_, ?_, ?_⟩
  · intro e'
    simp only [hexecutor, hr.busy]
    exact h.holder e'
  · intro e'
    rcases eq_or_ne e' e with rfl | hne
    · obtain ⟨current, hreplay, _, halone, hf⟩ := h.held hat
      obtain ⟨current', hreplay', hf'⟩ := hfits current hreplay hf
      refine ⟨current', hreplay', .inr ⟨s, hat', ?_, hf'⟩⟩
      intro s' hs'
      exact halone s' (hexecutor s' ▸ hs')
    · refine ht.slot ?_ ?_ hne (h.slots e')
      · intro e'' he''
        exact Option.some.inj (he''.symm.trans hat)
      · intro e'' he''
        exact Option.some.inj (he''.symm.trans hat')
  · intro e' he'
    rw [hr.workers] at he'
    have hne : e' ≠ e := by
      rintro rfl
      exact absurd (h.known hat) (Nat.not_lt.mpr he')
    rw [ht.queues e' hne, ht.events e' hne]
    exact h.fresh e' he'

theorem stages_setStage (p : AsyncThreadPool) (s s' : Nat) (stage : Stage) :
    (p.setStage s stage).stages s' = if s' = s then stage else p.stages s' := by
  simp only [setStage, Function.update_apply]

section

variable (h : p.Sound maxWorkers)

include h

theorem Sound.idles (hs : (p.stages s).executor = none) (hstage : stage.executor = none) :
    (p.setStage s stage).Sound maxWorkers := by
  have hexecutor (s' : Nat) : ((p.setStage s stage).stages s').executor = (p.stages s').executor := by
    rw [stages_setStage]
    split
    · rename_i heq
      rw [heq, hs, hstage]
    · rfl
  refine ⟨h.toRoster.same ⟨rfl, rfl, rfl, rfl⟩, ?_, ?_, h.fresh⟩
  · intro e
    simp only [hexecutor]
    exact h.holder e
  · intro e
    refine (h.slots e).congr rfl rfl ?_
    intro s' hs'
    rw [stages_setStage, if_neg]
    rintro rfl
    rw [hexecutor, or_self, hs] at hs'
    cases hs'

theorem Sound.leave (hat : (p.stages s).executor = some e)
    (hdrains : ∀ current, Fits s (p.stages s) current (p.queues e) → Drains current (p.queues e)) :
    ((p.release e).setStage s .left).Sound maxWorkers := by
  have hbusy := (h.holder e).mpr ⟨s, hat⟩
  obtain ⟨current, hreplay, _, halone, hfits⟩ := h.held hat
  obtain ⟨hroster, hmem⟩ := h.toRoster.release hbusy
  have hexecutor (s' e' : Nat) : (((p.release e).setStage s .left).stages s').executor = some e' ↔
      (p.stages s').executor = some e' ∧ e' ≠ e := by
    rw [stages_setStage]
    split
    · rename_i heq
      rw [heq, hat]
      constructor
      · nofun
      · rintro ⟨hsame, hne⟩
        exact absurd (Option.some.inj hsame).symm hne
    · rename_i hne
      constructor
      · intro hs'
        refine ⟨hs', ?_⟩
        rintro rfl
        exact hne (halone s' hs')
      · exact And.left
  refine ⟨hroster.same ⟨rfl, rfl, rfl, rfl⟩, ?_, ?_, h.fresh⟩
  · intro e'
    simp only [hexecutor]
    rw [exists_and_right, ← h.holder e']
    exact hmem e'
  · intro e'
    rcases eq_or_ne e' e with rfl | hne
    · refine ⟨current, hreplay, .inl ⟨?_, hdrains current hfits⟩⟩
      intro s' hs'
      exact ((hexecutor s' e').mp hs').2 rfl
    · refine (h.slots e').congr rfl rfl ?_
      intro s' hs'
      rw [hexecutor] at hs'
      rw [stages_setStage, if_neg]
      · rfl
      · rintro rfl
        rw [hat, Option.some.injEq] at hs'
        exact hne (hs'.elim Eq.symm fun hs' => hs'.1.symm)

theorem Sound.unheld (he : e ∉ p.busy) :
    ∃ current, replay (p.eventsOf e) = some current ∧ Drains current (p.queues e) := by
  obtain ⟨current, hreplay, ⟨_, hdrains⟩ | ⟨s, hat, _⟩⟩ := h.slots e
  · exact ⟨current, hreplay, hdrains⟩
  · exact absurd ((h.holder e).mpr ⟨s, hat⟩) he

theorem Sound.opens (hs : p.stages s = .waiting) (hsema : p.sema ≠ 0) (pick : Nat) :
    (((p.take pick).2.execute (p.take pick).1 s .begin).setStage s
      (.opening (p.take pick).1 none)).Sound maxWorkers := by
  obtain ⟨hroster, htakes⟩ := h.toRoster.take hsema pick
  generalize p.take pick = found at hroster htakes
  obtain ⟨e, p₁⟩ := found
  obtain ⟨hother, hbusy, hworkers, hknown, hqueues, hstages, hlog, _⟩ := htakes
  dsimp only at *
  have hexecutor (s' e' : Nat) : (((p₁.execute e s .begin).setStage s (.opening e none)).stages
      s').executor = some e' ↔ s' = s ∧ e' = e ∨ (p.stages s').executor = some e' := by
    rw [stages_setStage]
    split
    · rename_i heq
      subst heq
      rw [hs]
      simp [executor, eq_comm]
    · rename_i hne
      simp [hne, execute, setQueue, hstages]
  have hevents (e' : Nat) : ((p₁.execute e s .begin).setStage s (.opening e none)).eventsOf e' =
      p.eventsOf e' := by
    simp only [eventsOf, execute, setQueue, setStage, hlog]
  have hqueue (e' : Nat) (hne : e' ≠ e) :
      ((p₁.execute e s .begin).setStage s (.opening e none)).queues e' = p.queues e' := by
    simp [execute, setQueue, setStage, hne, hqueues]
  refine ⟨hroster.same ⟨rfl, rfl, rfl, rfl⟩, ?_, ?_, ?_⟩
  · intro e'
    simp only [hexecutor, exists_or, exists_eq_left]
    rw [← h.holder e']
    change e' ∈ p₁.busy ↔ _
    rw [hbusy, List.mem_cons]
  · intro e'
    rcases eq_or_ne e' e with rfl | hne
    · obtain ⟨current, hreplay, hdrains⟩ := h.unheld hother
      refine ⟨current, hevents e' ▸ hreplay, .inr ⟨s, ?_, ?_, ?_⟩⟩
      · exact (hexecutor s e').mpr (.inl ⟨rfl, rfl⟩)
      · intro s' hs'
        rcases (hexecutor s' e').mp hs' with ⟨rfl, _⟩ | hat
        · rfl
        · exact absurd ((h.holder e').mpr ⟨s', hat⟩) hother
      · have hstage : ((p₁.execute e' s .begin).setStage s (.opening e' none)).stages s =
            .opening e' none := by
          rw [stages_setStage, if_pos rfl]
        have hitems : ((p₁.execute e' s .begin).setStage s (.opening e' none)).queues e' =
            p.queues e' ++ [⟨s, .begin, false⟩] := by
          simp [execute, setQueue, setStage, hqueues]
        rw [hstage, hitems]
        exact .opening hdrains
    · refine (h.slots e').congr (hevents e') (hqueue e' hne) ?_
      intro s' hs'
      rw [stages_setStage, if_neg]
      · exact congrFun hstages s'
      · rintro rfl
        rw [hexecutor, hs] at hs'
        rcases hs' with hs' | ⟨_, heq⟩ | hs'
        · cases hs'
        · exact hne heq
        · cases hs'
  · intro e' he'
    have hne : e' ≠ e := by
      rintro rfl
      exact absurd hknown (Nat.not_lt.mpr he')
    rw [hqueue e' hne, hevents e']
    exact h.fresh e' (Nat.le_trans hworkers he')

end

structure Worked (e : Nat) (item : WorkItem) (rest : List WorkItem) (fails : Bool)
    (p p' : AsyncThreadPool) : Prop where
  roster : SameRoster p p'
  queue : p'.queues e = rest
  queues : ∀ e', e' ≠ e → p'.queues e' = p.queues e'
  events : p'.eventsOf e = p.eventsOf e ++ item.effect fails
  elsewhere : ∀ e', e' ≠ e → p'.eventsOf e' = p.eventsOf e'
  stages : ∀ s, p'.stages s = (p.stages s).after s e item fails

theorem worked (p : AsyncThreadPool) (write : Bool) {rest : List WorkItem} (fails : Bool)
    (h : p.queues e = item :: rest) : ∃ failed, Worked e item rest failed p (p.step write (.work e fails)) := by
  simp only [step, h]
  generalize (fails || p.refuses write e item) = failed
  refine ⟨failed, ?_⟩
  split
  · rename_i hcancelled
    refine ⟨⟨rfl, rfl, rfl, rfl⟩, ?_, ?_, ?_, fun _ _ => rfl, ?_⟩
    · simp [setQueue]
    · intro e' hne
      simp [setQueue, hne]
    · rw [WorkItem.effect, if_pos hcancelled, List.append_nil]
      rfl
    · intro s
      rw [after, if_neg]
      · rfl
      · rw [hcancelled]
        rintro ⟨_, ⟨⟩⟩
  · rename_i hlive
    rw [Bool.not_eq_true] at hlive
    refine ⟨⟨rfl, rfl, rfl, rfl⟩, ?_, ?_, ?_, ?_, ?_⟩
    · simp [respond, perform, setQueue, setStage]
    · intro e' hne
      simp [respond, perform, setQueue, setStage, hne]
    · rw [WorkItem.effect, hlive]
      exact eventsOf_perform_self (p.setQueue e rest) e item failed
    · intro e' hne
      exact eventsOf_perform_of_ne (p.setQueue e rest) hne item failed
    · intro s
      rw [respond, stages_setStage, after]
      simp only [hlive, and_true]
      split
      · rename_i heq
        rw [heq]
        rfl
      · rfl

theorem answer_elsewhere (h : stage.executor ≠ some e) (job : TxnJob) (ok : Bool) :
    stage.answer e job ok = stage := by
  have hne {e' : Nat} (he' : stage.executor = some e') : e' ≠ e := by
    rintro rfl
    exact h he'
  cases stage with
  | opening e' answer =>
    cases answer with
    | none => simp [answer, hne rfl]
    | some answer => rfl
  | awaiting e' answered =>
    cases answered with
    | false => simp [answer, hne rfl]
    | true => rfl
  | finishing e' answered =>
    cases answered with
    | false => simp [answer, hne rfl]
    | true => rfl
  | _ => rfl

theorem executor_answer (stage : Stage) (e : Nat) (job : TxnJob) (ok : Bool) :
    (stage.answer e job ok).executor = stage.executor := by
  cases stage with
  | opening e' answer =>
    cases answer with
    | none =>
      unfold answer
      dsimp only
      split <;> rfl
    | some answer => rfl
  | awaiting e' answered => cases answered <;> rfl
  | finishing e' answered => cases answered <;> rfl
  | _ => rfl

theorem after_elsewhere (h : stage.executor ≠ some e) (fails : Bool) : stage.after s e item fails = stage := by
  unfold after
  split
  · exact answer_elsewhere h _ _
  · rfl

theorem executor_after (stage : Stage) (item : WorkItem) (fails : Bool) :
    (stage.after s e item fails).executor = stage.executor := by
  unfold after
  split
  · exact executor_answer _ _ _ _
  · rfl

theorem Sound.works (h : p.Sound maxWorkers) {rest : List WorkItem} {fails : Bool}
    (hqueue : p.queues e = item :: rest) (hw : Worked e item rest fails p p') : p'.Sound maxWorkers := by
  have hexecutor (s : Nat) : (p'.stages s).executor = (p.stages s).executor := by
    rw [hw.stages s, executor_after]
  refine ⟨h.toRoster.same hw.roster, ?_, ?_, ?_⟩
  · intro e'
    simp only [hexecutor, hw.roster.busy]
    exact h.holder e'
  · intro e'
    rcases eq_or_ne e' e with rfl | hne
    · obtain ⟨current, hreplay, hcases⟩ := h.slots e'
      rcases hcases with ⟨hnone, hdrains⟩ | ⟨s, hat, halone, hfits⟩
      · rw [hqueue] at hdrains
        obtain ⟨_, current', hfollow, hdrains'⟩ := hdrains.work fails
        refine ⟨current', ?_, .inl ⟨?_, hw.queue ▸ hdrains'⟩⟩
        · rw [hw.events, replay_append hreplay, hfollow]
        · intro s
          rw [hexecutor]
          exact hnone s
      · rw [hqueue] at hfits
        obtain ⟨current', hfollow, hfits'⟩ := hfits.work hat fails
        refine ⟨current', ?_, .inr ⟨s, ?_, ?_, ?_⟩⟩
        · rw [hw.events, replay_append hreplay, hfollow]
        · rw [hexecutor]
          exact hat
        · intro s' hs'
          exact halone s' (hexecutor s' ▸ hs')
        · rw [hw.stages s, hw.queue]
          exact hfits'
    · refine (h.slots e').congr (hw.elsewhere e' hne) (hw.queues e' hne) ?_
      intro s hs
      rw [hexecutor, or_self] at hs
      rw [hw.stages s, after_elsewhere]
      rw [hs, ne_eq, Option.some.injEq]
      exact hne
  · intro e' he'
    rw [hw.roster.workers] at he'
    have hne : e' ≠ e := by
      rintro rfl
      rw [(h.fresh e' he').1] at hqueue
      cases hqueue
    rw [hw.queues e' hne, hw.elsewhere e' hne]
    exact h.fresh e' he'

theorem touches_setStage (p : AsyncThreadPool) (s e : Nat) (stage : Stage) :
    Touches s e p (p.setStage s stage) := by
  refine ⟨?_, fun _ _ => rfl, fun _ _ => rfl⟩
  intro s' hne
  rw [stages_setStage, if_neg hne]

theorem touches_setQueue (p : AsyncThreadPool) (s e : Nat) (items : List WorkItem) :
    Touches s e p (p.setQueue e items) := by
  refine ⟨fun _ _ => rfl, ?_, fun _ _ => rfl⟩
  intro e' hne
  simp [setQueue, hne]

theorem Touches.trans {p'' : AsyncThreadPool} (h : Touches s e p p') (h' : Touches s e p' p'') :
    Touches s e p p'' where
  stages s' hne := (h'.stages s' hne).trans (h.stages s' hne)
  queues e' hne := (h'.queues e' hne).trans (h.queues e' hne)
  events e' hne := (h'.events e' hne).trans (h.events e' hne)

theorem touches_execute (p : AsyncThreadPool) (s e : Nat) (job : TxnJob) (stage : Stage) :
    Touches s e p ((p.execute e s job).setStage s stage) :=
  (touches_setQueue p s e _).trans (touches_setStage _ s e stage)

theorem queue_execute (p : AsyncThreadPool) (s e : Nat) (job : TxnJob) (stage : Stage) :
    ((p.execute e s job).setStage s stage).queues e = p.queues e ++ [⟨s, job, false⟩] := by
  simp [execute, setQueue, setStage]

theorem Sound.runs (h : p.Sound maxWorkers) (hs : p.stages s = stage) (hat : stage.executor = some e)
    (hfits : ∀ current items, Fits s stage current items → current = some s ∧ items = []) :
    (p.setStage s (.running e)).Sound maxWorkers := by
  refine h.advance ⟨rfl, rfl, rfl, rfl⟩ (touches_setStage p s e _) (hs ▸ hat) ?_ ?_
  · rw [stages_setStage, if_pos rfl]
    rfl
  · intro current hreplay hf
    obtain ⟨rfl, hnil⟩ := hfits current _ (hs ▸ hf)
    refine ⟨some s, hreplay, ?_⟩
    rw [stages_setStage, if_pos rfl]
    change Fits s _ _ (p.queues e)
    rw [hnil]
    exact .running

theorem Sound.requests (h : p.Sound maxWorkers) (hs : p.stages s = .running e) :
    ((p.execute e s .op).setStage s (.awaiting e false)).Sound maxWorkers := by
  refine h.advance ⟨rfl, rfl, rfl, rfl⟩ (touches_execute p s e _ _) (hs ▸ rfl) ?_ ?_
  · rw [stages_setStage, if_pos rfl]
    rfl
  · intro current hreplay hf
    rw [hs] at hf
    generalize hitems : p.queues e = items at hf
    cases hf
    refine ⟨some s, hreplay, ?_⟩
    rw [stages_setStage, if_pos rfl, queue_execute, hitems]
    exact .awaiting

theorem Sound.finalizes (h : p.Sound maxWorkers) (hat : (p.stages s).executor = some e)
    (items : List WorkItem) (commit : Bool) (hops : ∀ current, Fits s (p.stages s) current (p.queues e) →
      current = some s ∧ ∀ item ∈ items, item.session = s ∧ item.job = .op) :
    ((p.setQueue e items).finalize e s commit).Sound maxWorkers := by
  have htouches : Touches s e p ((p.setQueue e items).finalize e s commit) :=
    (touches_setQueue p s e items).trans (touches_execute _ s e _ _)
  refine h.advance ⟨rfl, rfl, rfl, rfl⟩ htouches hat ?_ ?_
  · rw [finalize, stages_setStage, if_pos rfl]
    rfl
  · intro current hreplay hf
    obtain ⟨rfl, hown⟩ := hops current hf
    refine ⟨some s, hreplay, ?_⟩
    rw [finalize, stages_setStage, if_pos rfl, queue_execute]
    simp only [setQueue, Function.update_self]
    exact .finishing (.ending s items commit hown)

theorem setQueue_self (p : AsyncThreadPool) (e : Nat) : p.setQueue e (p.queues e) = p := by
  rw [setQueue, Function.update_eq_self]

theorem Sound.finalizes_running (h : p.Sound maxWorkers) (hs : p.stages s = .running e)
    (commit : Bool) : (p.finalize e s commit).Sound maxWorkers := by
  have hat : (p.stages s).executor = some e := by
    rw [hs]
    rfl
  have hops (current : Option Nat) (hf : Fits s (p.stages s) current (p.queues e)) :
      current = some s ∧ ∀ item ∈ p.queues e, item.session = s ∧ item.job = .op := by
    rw [hs] at hf
    generalize p.queues e = items at hf ⊢
    cases hf
    exact ⟨rfl, nofun⟩
  have hsound := h.finalizes hat (p.queues e) commit hops
  rwa [setQueue_self] at hsound

theorem Sound.returns (h : p.Sound maxWorkers) (returned : List Nat) :
    AsyncThreadPool.Sound maxWorkers { p with returned := returned } :=
  ⟨h.toRoster.same ⟨rfl, rfl, rfl, rfl⟩, h.holder, h.slots, h.fresh⟩

def sparesOpening (p : AsyncThreadPool) : SessionAction → Bool
  | .cancel s => !(p.stages s).isOpening
  | _ => true

theorem Sound.step (h : p.Sound maxWorkers) (write : Bool) {a : SessionAction}
    (ha : p.sparesOpening a = true) : (p.step write a).Sound maxWorkers := by
  cases a with
  | enter s =>
    dsimp only [AsyncThreadPool.step]
    split
    · rename_i hs
      exact h.idles (hs ▸ rfl) rfl
    · exact h
  | acquire s pick =>
    dsimp only [AsyncThreadPool.step]
    split
    · rename_i hs hsema
      exact h.opens hs (hsema ▸ nofun) pick
    · exact h
  | work e fails =>
    cases hqueue : p.queues e with
    | nil =>
      simp only [AsyncThreadPool.step, hqueue]
      exact h
    | cons item rest =>
      obtain ⟨failed, hw⟩ := worked p write fails hqueue
      exact h.works hqueue hw
  | resume s =>
    dsimp only [AsyncThreadPool.step]
    split
    · rename_i e hs
      refine h.runs hs rfl ?_
      intro current items hf
      cases hf
      exact ⟨rfl, rfl⟩
    · rename_i e hs
      refine h.leave (hs ▸ rfl) ?_
      intro current hf
      rw [hs] at hf
      generalize p.queues e = items at hf
      cases hf
      exact .idle
    · rename_i e hs
      refine h.runs hs rfl ?_
      intro current items hf
      cases hf
      exact ⟨rfl, rfl⟩
    · rename_i e hs
      refine h.leave (hs ▸ rfl) ?_
      intro current hf
      rw [hs] at hf
      generalize p.queues e = items at hf
      cases hf
      assumption
    · exact h
  | request s =>
    dsimp only [AsyncThreadPool.step]
    split
    · rename_i e hs
      exact h.requests hs
    · exact h
  | finish s =>
    dsimp only [AsyncThreadPool.step]
    split
    · rename_i e hs
      exact (h.finalizes_running hs write).returns _
    · exact h
  | raise s =>
    dsimp only [AsyncThreadPool.step]
    split
    · rename_i e hs
      exact h.finalizes_running hs false
    · exact h
  | cancel s =>
    dsimp only [AsyncThreadPool.step]
    split
    · rename_i hs
      exact h.idles (hs ▸ rfl) rfl
    · rename_i e answer hs
      rw [sparesOpening, hs] at ha
      obtain rfl : answer = some false := by simpa [isOpening] using ha
      refine h.leave (hs ▸ rfl) ?_
      intro current hf
      rw [hs] at hf
      generalize p.queues e = items at hf
      cases hf
      exact .idle
    · rename_i e hs
      exact h.finalizes_running hs false
    · rename_i e answered hs
      refine h.finalizes (hs ▸ rfl) _ false ?_
      intro current hf
      rw [hs] at hf
      generalize p.queues e = items at hf
      cases hf with
      | awaiting => simp [dropOps]
      | awaited => simp [dropOps]
    · rename_i e answered hs
      refine h.leave (hs ▸ rfl) ?_
      intro current hf
      rw [hs] at hf
      generalize p.queues e = items at hf
      cases hf
      assumption
    · exact h

end AsyncThreadPool

end Tourillon
