import Tourillon.Library.Machine
import Tourillon.Storage.PoolSound

namespace Tourillon

open Machine TxnEvent List

namespace AsyncThreadPool

variable {p p' : AsyncThreadPool} {maxWorkers s e : Nat} {item : WorkItem} {job : TxnJob} {fails : Bool}

structure Faithful (p : AsyncThreadPool) : Prop where
  committed : ∀ e s, (e, ended s true) ∈ p.log → s ∈ p.returned
  committing : ∀ e, ∀ item ∈ p.queues e, item.job = .finish true → item.session ∈ p.returned

theorem Faithful.mono (h : p.Faithful) (hlog : p'.log = p.log) (hreturned : ∀ s ∈ p.returned, s ∈ p'.returned)
    (hqueues : ∀ e, ∀ item ∈ p'.queues e, item.job = .finish true →
      item ∈ p.queues e ∨ item.session ∈ p'.returned) : p'.Faithful := by
  refine ⟨?_, ?_⟩
  · intro e s hin
    rw [hlog] at hin
    exact hreturned s (h.committed e s hin)
  · intro e item hitem hjob
    rcases hqueues e item hitem hjob with hold | hnew
    · exact hreturned _ (h.committing e item hold hjob)
    · exact hnew

theorem Faithful.same (h : p.Faithful) (hlog : p'.log = p.log) (hreturned : p'.returned = p.returned)
    (hqueues : p'.queues = p.queues) : p'.Faithful := by
  refine h.mono hlog (fun s hs => hreturned ▸ hs) ?_
  intro e item hitem _
  rw [hqueues] at hitem
  exact .inl hitem

theorem mem_execute {e' : Nat} (h : item ∈ (p.execute e s job).queues e') :
    item ∈ p.queues e' ∨ item = ⟨s, job, false⟩ := by
  simp only [execute, setQueue, Function.update_apply] at h
  split at h
  · rename_i heq
    rw [heq]
    simpa using h
  · exact .inl h

theorem Faithful.executes (h : p.Faithful) {stage : Stage} {returned : List Nat}
    (hreturned : ∀ s ∈ p.returned, s ∈ returned) (hjob : job = .finish true → s ∈ returned) :
    Faithful { (p.execute e s job).setStage s stage with returned := returned } := by
  refine h.mono rfl hreturned ?_
  intro e' item hitem hfinish
  rcases mem_execute hitem with hold | rfl
  · exact .inl hold
  · exact .inr (hjob hfinish)

theorem mem_dropOps {items : List WorkItem} {commit : Bool} (h : item ∈ dropOps items s)
    (hjob : item.job = .finish commit) : item ∈ items := by
  obtain ⟨item', hitem', heq⟩ := mem_map.mp h
  split at heq
  · rename_i hop
    rw [← heq] at hjob
    cases hop.2.symm.trans hjob
  · rw [← heq]
    exact hitem'

theorem Faithful.drops (h : p.Faithful) : (p.setQueue e (dropOps (p.queues e) s)).Faithful := by
  refine h.mono rfl (fun _ hs => hs) ?_
  intro e' item hitem hjob
  simp only [setQueue, Function.update_apply] at hitem
  split at hitem
  · rename_i heq
    rw [heq]
    exact .inl (mem_dropOps hitem hjob)
  · exact .inl hitem

theorem ended_outcome (h : .ended s true ∈ item.outcome fails) : item.session = s ∧ item.job = .finish true := by
  unfold WorkItem.outcome at h
  split at h
  · split at h
    · cases h
    · cases mem_singleton.mp h
  · cases h
  · rename_i commit hjob
    have heq := mem_singleton.mp h
    rw [ended.injEq] at heq
    obtain ⟨rfl, hcommit⟩ := heq
    have htrue := (Bool.and_eq_true ..).mp hcommit.symm
    exact ⟨rfl, htrue.1 ▸ hjob⟩

theorem Faithful.works (h : p.Faithful) {rest : List WorkItem} (hqueue : p.queues e = item :: rest) :
    (((p.setQueue e rest).perform e item fails).respond e item (!fails)).Faithful := by
  refine ⟨?_, ?_⟩
  · intro e' s hin
    rcases mem_append.mp hin with hold | hnew
    · exact h.committed e' s hold
    · obtain ⟨event, hevent, heq⟩ := mem_map.mp hnew
      cases heq
      obtain ⟨rfl, hjob⟩ := ended_outcome hevent
      exact h.committing e item (hqueue ▸ mem_cons_self ..) hjob
  · intro e' item' hitem hjob
    refine h.committing e' item' ?_ hjob
    simp only [respond, perform, setStage, setQueue, Function.update_apply] at hitem
    split at hitem
    · rename_i heq
      rw [heq, hqueue]
      exact mem_cons_of_mem _ hitem
    · exact hitem

theorem Faithful.step (h : p.Faithful) (write : Bool) (a : SessionAction) : (p.step write a).Faithful := by
  have hfinalize (p : AsyncThreadPool) (hp : p.Faithful) (e s : Nat) : (p.finalize e s false).Faithful :=
    hp.executes (fun _ hs => hs) (by rintro ⟨⟩)
  cases a with
  | enter s =>
    dsimp only [AsyncThreadPool.step]
    split
    · exact h.same rfl rfl rfl
    · exact h
  | acquire s pick =>
    dsimp only [AsyncThreadPool.step]
    split
    · have htake : (p.take pick).2.Faithful := by
        unfold AsyncThreadPool.take
        split
        · exact h.same rfl rfl rfl
        · exact h.same rfl rfl rfl
      exact htake.executes (fun _ hs => hs) (by rintro ⟨⟩)
    · exact h
  | work e fails =>
    dsimp only [AsyncThreadPool.step]
    split
    · exact h
    · rename_i item rest hqueue
      split
      · refine h.mono rfl (fun _ hs => hs) ?_
        intro e' item' hitem _
        simp only [setQueue, Function.update_apply] at hitem
        split at hitem
        · rename_i heq
          rw [heq, hqueue]
          exact .inl (mem_cons_of_mem _ hitem)
        · exact .inl hitem
      · exact h.works hqueue
  | resume s =>
    dsimp only [AsyncThreadPool.step]
    split
    · exact h.same rfl rfl rfl
    · exact h.same rfl rfl rfl
    · exact h.same rfl rfl rfl
    · exact h.same rfl rfl rfl
    · exact h
  | request s =>
    dsimp only [AsyncThreadPool.step]
    split
    · exact h.executes (fun _ hs => hs) (by rintro ⟨⟩)
    · exact h
  | finish s =>
    dsimp only [AsyncThreadPool.step]
    split
    · exact h.executes (fun _ hs => mem_cons_of_mem _ hs) fun _ => mem_cons_self ..
    · exact h
  | raise s =>
    dsimp only [AsyncThreadPool.step]
    split
    · exact hfinalize p h _ s
    · exact h
  | cancel s =>
    dsimp only [AsyncThreadPool.step]
    split
    · exact h.same rfl rfl rfl
    · exact h.same rfl rfl rfl
    · exact hfinalize p h _ s
    · exact hfinalize _ h.drops _ s
    · exact h.same rfl rfl rfl
    · exact h

theorem sound_make (maxWorkers : Nat) : (make maxWorkers).Sound maxWorkers where
  permits := rfl
  bounded := Nat.zero_le _
  created := List.Perm.refl _
  holder e := by simp [make, Stage.executor]
  slots e := ⟨none, rfl, .inl ⟨nofun, .idle⟩⟩
  fresh e _ := ⟨rfl, rfl⟩

theorem faithful_make (maxWorkers : Nat) : (make maxWorkers).Faithful := ⟨nofun, nofun⟩

theorem Sound.alternate (h : p.Sound maxWorkers) (e : Nat) : alternate (p.eventsOf e) = true := by
  obtain ⟨_, hreplay, _⟩ := h.slots e
  exact alternate_of_replay hreplay

theorem Sound.ended (h : p.Sound maxWorkers) (hbegun : begun s ∈ p.eventsOf e) (hleft : p.stages s = .left)
    (hqueue : p.queues e = []) : ∃ committed, .ended s committed ∈ p.eventsOf e := by
  obtain ⟨current, hreplay, hcases⟩ := h.slots e
  refine (ended_of_replay hreplay hbegun).resolve_left ?_
  rintro rfl
  rw [hqueue] at hcases
  rcases hcases with ⟨_, hdrains⟩ | ⟨s', hat, _, hfits⟩
  · cases hdrains.of_nil
  · have hs' : s' = s := by
      rw [hqueue] at hfits
      generalize p.stages s' = stage at hfits
      generalize hitems : ([] : List WorkItem) = items at hfits
      generalize hcurrent : some s = current at hfits
      cases hfits with
      | finishing drains =>
        cases hitems
        cases hcurrent
        cases drains.of_nil
      | @opening _ _ rest _ => cases rest <;> cases hitems
      | refused => cases hcurrent
      | awaiting => cases hitems
      | _ => exact (Option.some.inj hcurrent).symm
    rw [hs', hleft] at hat
    cases hat

theorem Sound.eventsOf_single (h : p.Sound 1) : p.eventsOf 0 = p.log.map Prod.snd := by
  unfold eventsOf
  rw [filter_eq_self.mpr]
  rintro ⟨e, event⟩ hin
  rw [decide_eq_true_iff]
  by_contra hne
  have hworkers := h.bounded
  have hnone := (h.fresh e (by omega)).2
  rw [eventsOf, map_eq_nil_iff, filter_eq_nil_iff] at hnone
  exact hnone _ hin (decide_eq_true rfl)

end AsyncThreadPool

structure LmdbSessionProvider where
  readPool : AsyncThreadPool
  writePool : AsyncThreadPool

namespace LmdbSessionProvider

def make (maxReaders maxWriters : Nat) : LmdbSessionProvider := ⟨.make maxReaders, .make maxWriters⟩

section

variable (p : LmdbSessionProvider)

def pool (write : Bool) : AsyncThreadPool := if write then p.writePool else p.readPool

def step : Bool × SessionAction → LmdbSessionProvider
  | (true, a) => { p with writePool := p.writePool.step true a }
  | (false, a) => { p with readPool := p.readPool.step false a }

def run (acts : List (Bool × SessionAction)) : LmdbSessionProvider := acts.foldl step p

def sparesOpening (a : Bool × SessionAction) : Bool := (p.pool a.1).sparesOpening a.2

end

structure Sound (maxReaders maxWriters : Nat) (p : LmdbSessionProvider) : Prop where
  reads : p.readPool.Sound maxReaders
  writes : p.writePool.Sound maxWriters
  readsFaithful : p.readPool.Faithful
  writesFaithful : p.writePool.Faithful

variable {p : LmdbSessionProvider} {maxReaders maxWriters : Nat}

theorem Sound.step (h : p.Sound maxReaders maxWriters) {a : Bool × SessionAction}
    (ha : p.sparesOpening a = true) : (p.step a).Sound maxReaders maxWriters := by
  obtain ⟨write, a⟩ := a
  cases write with
  | true => exact ⟨h.reads, h.writes.step true ha, h.readsFaithful, h.writesFaithful.step true a⟩
  | false => exact ⟨h.reads.step false ha, h.writes, h.readsFaithful.step false a, h.writesFaithful⟩

theorem Sound.run (h : p.Sound maxReaders maxWriters) {acts : List (Bool × SessionAction)}
    (ha : Along LmdbSessionProvider.step (sparesOpening · ·) p acts) : (p.run acts).Sound maxReaders maxWriters :=
  ha.invariant (fun _ _ hspared hs => hs.step hspared) h

theorem sound_make (maxReaders maxWriters : Nat) : (make maxReaders maxWriters).Sound maxReaders maxWriters :=
  ⟨AsyncThreadPool.sound_make _, AsyncThreadPool.sound_make _, AsyncThreadPool.faithful_make _,
    AsyncThreadPool.faithful_make _⟩

end LmdbSessionProvider

theorem transactions_ended (maxReaders maxWriters : Nat) (acts : List (Bool × SessionAction))
    (hcancel : Along LmdbSessionProvider.step (LmdbSessionProvider.sparesOpening · ·)
      (.make maxReaders maxWriters) acts) :
    (∀ write e, alternate ((((LmdbSessionProvider.make maxReaders maxWriters).run
      acts).pool write).eventsOf e) = true) ∧
    (∀ write e s, begun s ∈ (((LmdbSessionProvider.make maxReaders maxWriters).run acts).pool write).eventsOf e →
      (((LmdbSessionProvider.make maxReaders maxWriters).run acts).pool write).stages s = .left →
      (((LmdbSessionProvider.make maxReaders maxWriters).run acts).pool write).queues e = [] →
      ∃ committed, .ended s committed ∈ (((LmdbSessionProvider.make maxReaders maxWriters).run
        acts).pool write).eventsOf e) ∧
    (maxWriters = 1 → alternate (((LmdbSessionProvider.make maxReaders maxWriters).run
      acts).writePool.log.map Prod.snd) = true) ∧
    (∀ write e s, (e, ended s true) ∈ (((LmdbSessionProvider.make maxReaders maxWriters).run acts).pool write).log →
        s ∈ (((LmdbSessionProvider.make maxReaders maxWriters).run acts).pool write).returned) := by
  have hsound := (LmdbSessionProvider.sound_make maxReaders maxWriters).run hcancel
  refine ⟨?_, ?_, ?_, ?_⟩
  · intro write e
    cases write with
    | true => exact hsound.writes.alternate e
    | false => exact hsound.reads.alternate e
  · intro write e s
    cases write with
    | true => exact hsound.writes.ended
    | false => exact hsound.reads.ended
  · rintro rfl
    rw [← hsound.writes.eventsOf_single]
    exact hsound.writes.alternate 0
  · intro write e s hin
    cases write with
    | true => exact hsound.writesFaithful.committed e s hin
    | false => exact hsound.readsFaithful.committed e s hin

namespace Sample

def openedAndCancelled (write : Bool) : List (Bool × SessionAction) :=
  [(write, .enter 0), (write, .acquire 0 0), (write, .cancel 0), (write, .enter 1), (write, .acquire 1 0),
    (write, .work 0 false), (write, .work 0 false), (write, .resume 1)]

theorem cancelled_opening_leaks :
    (((LmdbSessionProvider.make 4 1).run (openedAndCancelled true)).writePool.eventsOf 0 = [.begun 0] ∧
      ((LmdbSessionProvider.make 4 1).run (openedAndCancelled true)).writePool.stages 0 = .left ∧
      ((LmdbSessionProvider.make 4 1).run (openedAndCancelled true)).writePool.queues 0 = [] ∧
      ((LmdbSessionProvider.make 4 1).run (openedAndCancelled true)).writePool.stages 1 = .left) ∧
    ((LmdbSessionProvider.make 4 1).run (openedAndCancelled false)).readPool.eventsOf 0 = [.begun 0, .begun 1] ∧
    alternate (((LmdbSessionProvider.make 4 1).run (openedAndCancelled false)).readPool.eventsOf
      0) = false := by decide

def cancelledInBody : List (Bool × SessionAction) :=
  [(true, .enter 0), (true, .acquire 0 0), (true, .work 0 false), (true, .resume 0),
    (true, .request 0), (true, .cancel 0), (true, .cancel 0), (true, .enter 1), (true, .acquire 1 0),
    (true, .work 0 false), (true, .work 0 false), (true, .work 0 false), (true, .resume 1),
    (true, .finish 1), (true, .work 0 false)]

theorem cancelled_body_aborts : ((LmdbSessionProvider.make 4 1).run cancelledInBody).writePool.log.map Prod.snd =
      [.begun 0, .ended 0 false, .begun 1, .ended 1 true] ∧
    alternate (((LmdbSessionProvider.make 4 1).run cancelledInBody).writePool.log.map Prod.snd) = true :=
  ⟨by decide, (transactions_ended 4 1 cancelledInBody (by decide)).2.2.1 rfl⟩

end Sample

end Tourillon
