import Tourillon.Storage.ThreadPool

namespace Tourillon

open List TxnEvent

variable {current : Option Nat} {item : WorkItem} {rest : List WorkItem}

inductive Drains : Option Nat → List WorkItem → Prop where
  | idle : Drains none []
  | ending (s : Nat) (ops : List WorkItem) (commit : Bool)
      (own : ∀ item ∈ ops, item.session = s ∧ item.job = .op) :
      Drains (some s) (ops ++ [⟨s, .finish commit, false⟩])

inductive Fits (s : Nat) : Stage → Option Nat → List WorkItem → Prop where
  | opening {e : Nat} {current : Option Nat} {rest : List WorkItem} (drains : Drains current rest) :
      Fits s (.opening e none) current (rest ++ [⟨s, .begin, false⟩])
  | opened {e : Nat} : Fits s (.opening e (some true)) (some s) []
  | refused {e : Nat} : Fits s (.opening e (some false)) none []
  | running {e : Nat} : Fits s (.running e) (some s) []
  | awaiting {e : Nat} : Fits s (.awaiting e false) (some s) [⟨s, .op, false⟩]
  | awaited {e : Nat} : Fits s (.awaiting e true) (some s) []
  | finishing {e : Nat} {answered : Bool} {current : Option Nat} {items : List WorkItem}
      (drains : Drains current items) : Fits s (.finishing e answered) current items

def WorkItem.effect (item : WorkItem) (fails : Bool) : List TxnEvent :=
  if item.cancelled then [] else item.outcome fails

theorem Drains.work (h : Drains current (item :: rest)) (fails : Bool) :
    item.job ≠ .begin ∧ ∃ current', (item.effect fails).foldlM follow current =
      some current' ∧ Drains current' rest := by
  generalize hitems : item :: rest = items at h
  cases h with
  | idle => cases hitems
  | ending s ops commit own =>
    cases ops with
    | nil =>
      cases hitems
      refine ⟨by rintro ⟨⟩, none, ?_, .idle⟩
      simp [WorkItem.effect, WorkItem.outcome, follow]
    | cons op ops =>
      cases hitems
      obtain ⟨_, hjob⟩ := own item mem_cons_self
      refine ⟨by rw [hjob]; rintro ⟨⟩, some s, ?_, .ending s ops commit ?_⟩
      · simp [WorkItem.effect, WorkItem.outcome, hjob]
      · intro op hop
        exact own op (mem_cons_of_mem _ hop)

theorem Drains.of_nil (h : Drains current []) : current = none := by
  generalize hitems : [] = items at h
  cases h with
  | idle => rfl
  | ending s ops commit own => cases ops <;> cases hitems

def Stage.after (s e : Nat) (item : WorkItem) (fails : Bool) (stage : Stage) : Stage :=
  if s = item.session ∧ item.cancelled = false then stage.answer e item.job (!fails) else stage

theorem Fits.work {s e : Nat} {stage : Stage} (h : Fits s stage current (item :: rest))
    (he : stage.executor = some e) (fails : Bool) :
    ∃ current', (item.effect fails).foldlM follow current = some current' ∧
      Fits s (stage.after s e item fails) current' rest := by
  generalize hitems : item :: rest = items at h
  cases h with
  | @opening _ _ before drains =>
    cases he
    cases before with
    | nil =>
      cases hitems
      cases drains.of_nil
      cases fails with
      | true => exact ⟨none, rfl, by simpa [Stage.after, Stage.answer] using Fits.refused⟩
      | false => exact ⟨some s, rfl, by simpa [Stage.after, Stage.answer] using Fits.opened⟩
    | cons first before =>
      cases hitems
      obtain ⟨hjob, current', hfollow, hdrains⟩ := drains.work fails
      refine ⟨current', hfollow, ?_⟩
      have hstage : (Stage.opening e none).after s e item fails = .opening e none := by
        simp [Stage.after, Stage.answer, hjob]
      rw [hstage]
      exact .opening hdrains
  | awaiting =>
    cases he
    cases hitems
    exact ⟨some s, rfl, by simpa [Stage.after, Stage.answer] using Fits.awaited⟩
  | @finishing _ answered _ _ drains =>
    cases he
    subst hitems
    obtain ⟨_, current', hfollow, hdrains⟩ := drains.work fails
    refine ⟨current', hfollow, ?_⟩
    have hstage : ∃ answered', (Stage.finishing e answered).after s e item fails =
        .finishing e answered' := by
      unfold Stage.after
      split
      · cases answered <;> exact ⟨_, rfl⟩
      · exact ⟨_, rfl⟩
    obtain ⟨answered', hstage⟩ := hstage
    rw [hstage]
    exact .finishing hdrains
  | opened => cases hitems
  | refused => cases hitems
  | running => cases hitems
  | awaited => cases hitems

namespace AsyncThreadPool

variable {p p' : AsyncThreadPool} {maxWorkers s e e' pick : Nat}

structure Roster (maxWorkers : Nat) (p : AsyncThreadPool) : Prop where
  permits : p.sema + p.busy.length = maxWorkers
  bounded : p.workers ≤ maxWorkers
  created : (p.free ++ p.busy).Perm (range p.workers)

def Held (p : AsyncThreadPool) (e s : Nat) (current : Option Nat) : Prop :=
  (p.stages s).executor = some e ∧ (∀ s', (p.stages s').executor = some e → s' = s) ∧
    Fits s (p.stages s) current (p.queues e)

def Slot (p : AsyncThreadPool) (e : Nat) : Prop :=
  ∃ current, replay (p.eventsOf e) = some current ∧
    ((∀ s, (p.stages s).executor ≠ some e) ∧ Drains current (p.queues e) ∨ ∃ s, p.Held e s current)

structure Sound (maxWorkers : Nat) (p : AsyncThreadPool) : Prop extends Roster maxWorkers p where
  holder : ∀ e, e ∈ p.busy ↔ ∃ s, (p.stages s).executor = some e
  slots : ∀ e, p.Slot e
  fresh : ∀ e, p.workers ≤ e → p.queues e = [] ∧ p.eventsOf e = []

theorem Slot.congr (h : p.Slot e) (hevents : p'.eventsOf e = p.eventsOf e) (hqueue : p'.queues e = p.queues e)
    (hstages : ∀ s, (p.stages s).executor = some e ∨ (p'.stages s).executor = some e →
      p'.stages s = p.stages s) : p'.Slot e := by
  obtain ⟨current, hreplay, hcases⟩ := h
  refine ⟨current, hevents ▸ hreplay, ?_⟩
  rcases hcases with ⟨hnone, hdrains⟩ | ⟨s, hat, halone, hfits⟩
  · refine .inl ⟨?_, hqueue ▸ hdrains⟩
    intro s hs
    exact hnone s (hstages s (.inr hs) ▸ hs)
  · have hsame := hstages s (.inl hat)
    refine .inr ⟨s, hsame ▸ hat, ?_, hqueue ▸ hsame ▸ hfits⟩
    intro s' hs'
    exact halone s' (hstages s' (.inr hs') ▸ hs')

theorem Sound.held (h : p.Sound maxWorkers) (hs : (p.stages s).executor = some e) :
    ∃ current, replay (p.eventsOf e) = some current ∧ p.Held e s current := by
  obtain ⟨current, hreplay, ⟨hnone, _⟩ | ⟨s', hheld⟩⟩ := h.slots e
  · cases hnone s hs
  · obtain rfl := hheld.2.1 s hs
    exact ⟨current, hreplay, hheld⟩

structure Touches (s e : Nat) (p p' : AsyncThreadPool) : Prop where
  stages : ∀ s', s' ≠ s → p'.stages s' = p.stages s'
  queues : ∀ e', e' ≠ e → p'.queues e' = p.queues e'
  events : ∀ e', e' ≠ e → p'.eventsOf e' = p.eventsOf e'

theorem Touches.slot (ht : Touches s e p p') (hbefore : ∀ e', (p.stages s).executor = some e' → e' = e)
    (hafter : ∀ e', (p'.stages s).executor = some e' → e' = e) (hne : e' ≠ e) (h : p.Slot e') : p'.Slot e' := by
  refine h.congr (ht.events e' hne) (ht.queues e' hne) ?_
  intro s' hs'
  apply ht.stages s'
  rintro rfl
  exact hne (hs'.elim (hbefore e') (hafter e'))

theorem eventsOf_perform_self (p : AsyncThreadPool) (e : Nat) (item : WorkItem) (fails : Bool) :
    (p.perform e item fails).eventsOf e = p.eventsOf e ++ item.outcome fails := by
  simp [eventsOf, perform, filter_map, Function.comp_def]

theorem eventsOf_perform_of_ne (p : AsyncThreadPool) (h : e' ≠ e) (item : WorkItem) (fails : Bool) :
    (p.perform e item fails).eventsOf e' = p.eventsOf e' := by
  simp [eventsOf, perform, filter_map, Function.comp_def, h.symm]

theorem pop_eq_some (h : p.pop pick = some e) : e ∈ p.free := by
  unfold pop at h
  split at h
  · cases h
    assumption
  · exact mem_of_mem_head? h

theorem pop_eq_none (h : p.pop pick = none) : p.free = [] := by
  unfold pop at h
  split at h
  · cases h
  · exact head?_eq_none_iff.mp h

structure Takes (p : AsyncThreadPool) (found : Nat × AsyncThreadPool) : Prop where
  other : found.1 ∉ p.busy
  busy : found.2.busy = found.1 :: p.busy
  workers : p.workers ≤ found.2.workers
  known : found.1 < found.2.workers
  queues : found.2.queues = p.queues
  stages : found.2.stages = p.stages
  log : found.2.log = p.log
  returned : found.2.returned = p.returned

theorem Roster.take (h : p.Roster maxWorkers) (hsema : p.sema ≠ 0) (pick : Nat) :
    (p.take pick).2.Roster maxWorkers ∧ p.Takes (p.take pick) := by
  obtain ⟨hpermits, hbounded, hcreated⟩ := h
  have hnodup := hcreated.nodup_iff.mpr (nodup_range)
  unfold AsyncThreadPool.take
  split
  · rename_i e hpop
    have hfree := pop_eq_some hpop
    have hin : e ∈ range p.workers := hcreated.subset (mem_append_left _ hfree)
    refine ⟨⟨?_, hbounded, ?_⟩, ?_, rfl, Nat.le_refl _, mem_range.mp hin, rfl, rfl, rfl, rfl⟩
    · simp only [length_cons]
      omega
    · refine perm_middle.trans (List.Perm.trans ?_ hcreated)
      exact (perm_cons_erase hfree).symm.append_right p.busy
    · intro hbusy
      exact (nodup_append.mp hnodup).2.2 e hfree e hbusy rfl
  · rename_i hpop
    rw [pop_eq_none hpop, nil_append] at hcreated
    have hlength := hcreated.length_eq
    rw [length_range] at hlength
    refine ⟨⟨?_, ?_, ?_⟩, ?_, rfl, Nat.le_succ _, Nat.lt_succ_self _, rfl, rfl, rfl, rfl⟩
    · simp only [length_cons]
      omega
    · dsimp only
      omega
    · rw [pop_eq_none hpop, nil_append, range_succ]
      exact (List.Perm.cons _ hcreated).trans (perm_append_singleton _ _).symm
    · intro hbusy
      exact absurd (mem_range.mp (hcreated.subset hbusy)) (Nat.lt_irrefl _)

theorem Roster.release (h : p.Roster maxWorkers) (he : e ∈ p.busy) :
    (p.release e).Roster maxWorkers ∧ ∀ e', e' ∈ (p.release e).busy ↔ e' ∈ p.busy ∧ e' ≠ e := by
  obtain ⟨hpermits, hbounded, hcreated⟩ := h
  have hnodup := (nodup_append.mp (hcreated.nodup_iff.mpr nodup_range)).2.1
  have hlength := length_erase_of_mem he
  have hpos := length_pos_of_mem he
  refine ⟨⟨?_, hbounded, ?_⟩, ?_⟩
  · simp only [AsyncThreadPool.release]
    omega
  · have hmiddle : (p.free ++ e :: p.busy.erase e).Perm (e :: (p.free ++ p.busy.erase e)) :=
      perm_middle
    exact hmiddle.symm.trans (((perm_cons_erase he).symm.append_left p.free).trans hcreated)
  · intro e'
    simp only [AsyncThreadPool.release, hnodup.mem_erase_iff]
    exact and_comm

end AsyncThreadPool

end Tourillon
