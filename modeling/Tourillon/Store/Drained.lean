import Tourillon.Store.Evolution

namespace Tourillon

open StoreService List

namespace StoreService

variable {s : StoreService} {n d group : Nat} {operation : StoreOperation}

theorem Tracking.unsent_pending (h : s.Tracking) (hnone : ∀ m, ¬ s.Unfinished m) (hn : s.Unsent n) :
    n ∈ s.pendingWrites := by
  obtain ⟨⟨parent, hrole⟩, hover⟩ := hn
  rcases h.writes n parent hrole hover with hpending | ⟨pending, hp, _⟩
  · exact hpending
  · refine absurd ⟨h.fanning parent pending hp, ?_⟩ (hnone parent)
    rw [hp]
    nofun

theorem Tracking.flush (h : s.Tracking) {mutations : List Nat}
    (hp : s.progress d = .settling mutations) (hover : ∀ m ∈ mutations, s.isOver m = true) :
    Evolves s (s.flush d) := by
  have hdraining : (s.progress d).draining = true := by rw [hp]; rfl
  have hnone (hle : s.reopened ≤ d) (m : Nat) : ¬ s.Unfinished m := by
    intro hu
    have hheld := h.held d hle
    rw [hp] at hheld
    exact hu.2 (of_decide_eq_true (hover m (hheld m hu)))
  unfold StoreService.flush
  split
  · rename_i hempty
    refine .drains hdraining rfl fun hle => ⟨hnone hle, ?_⟩
    intro m hu
    have hmem := h.unsent_pending (hnone hle) hu
    rw [hempty] at hmem
    cases hmem
  · exact .drains hdraining rfl fun hle => ⟨hnone hle, fun m hu => h.unsent_pending (hnone hle) hu⟩

theorem Tracking.wake (h : s.Tracking) (d : Nat) : Evolves s (s.wake d) := by
  unfold StoreService.wake
  split
  · rename_i mutations hp
    split
    · rename_i hall
      exact h.flush hp (all_eq_true.mp hall)
    · exact .refl s
  · rename_i writes hp
    split
    · rename_i hall
      refine .drains (by rw [hp]; rfl) rfl ?_
      intro hle
      have hheld := h.held d hle
      rw [hp] at hheld
      refine ⟨hheld.1, ?_⟩
      intro m hu
      exact hu.2 (of_decide_eq_true (all_eq_true.mp hall m (hheld.2 m hu)))
    · exact .refl s
  · exact .refl s

theorem Tracking.drain (h : s.Tracking) : Evolves s s.drain := by
  have hpause := s.alike_pause true
  have hpaused := h.alike hpause
  have he := hpaused.enlisted .drain (.settling s.mutations)
  have hdrain : Evolves s ({ s with gate := s.gate.pause true }.enlist .drain [.settling s.mutations]) := by
    refine (Evolves.alike hpause).trans (.enlists he nofun nofun nofun fun _ => ⟨rfl, ?_⟩)
    intro m hu
    obtain ⟨⟨operation, hrole⟩, hover⟩ := hu
    rw [he.role] at hrole
    rw [he.progress] at hover
    split at hrole
    · cases hrole
    · rename_i hne
      rw [if_neg hne] at hover
      exact h.mutations m ⟨⟨operation, hrole⟩, hover⟩
  unfold StoreService.drain
  dsimp only
  split
  · rename_i hempty
    have hsettling := (he.progress s.next).trans (if_pos rfl)
    exact hdrain.trans ((h.evolves hdrain).flush hsettling (by rw [hempty]; nofun))
  · exact hdrain

theorem evolves_inSession (hp : s.progress n = .storing group) (a : SessionAction) :
    Evolves s (s.inSession n group a) := by
  have hpool := Evolves.alike (s.alike_setPool group ((s.pools group).step true a))
  unfold inSession
  dsimp only
  split
  · refine hpool.trans (.moves (moves_close ?_ ?_))
    · exact (congrArg Progress.live hp).trans rfl
    · exact fun pending hc => nomatch hp.symm.trans hc
  · exact hpool

theorem evolves_cancel (s : StoreService) (n : Nat) : Evolves s (s.cancel n) := by
  unfold cancel
  split
  · split
    · rename_i hp
      exact .moves (moves_close (by rw [hp]; rfl) (by rw [hp]; nofun))
    · rename_i hp
      exact evolves_inSession hp _
    · rename_i hp
      exact .moves (moves_leave hp)
    · rename_i hp
      exact .moves (moves_setProgress (by rw [hp]; rfl) (.inr (by rw [hp]; rfl)) rfl
        (by rw [hp]; nofun) nofun)
    · rename_i hp
      exact .moves (moves_setProgress (by rw [hp]; rfl) (.inr (by rw [hp]; rfl)) rfl
        (by rw [hp]; nofun) nofun)
    · exact .refl s
  · exact .refl s

theorem placing_of_mayStore (h : s.mayStore n = true) :
    s.progress n = .placing ∨ ∃ target, s.progress n = .posting target := by
  unfold mayStore at h
  split at h
  · exact .inl ‹_›
  · exact .inl ‹_›
  · exact .inr ⟨_, ‹_›⟩
  · cases h

theorem evolves_store {pool : AsyncThreadPool} (hmay : s.mayStore n = true) :
    Evolves s ((s.setPool group pool).setProgress n (.storing group)) := by
  refine (Evolves.alike (s.alike_setPool group pool)).trans
    (.moves (moves_setProgress ?_ (.inl rfl) rfl ?_ nofun))
  · rcases placing_of_mayStore hmay with hp | ⟨target, hp⟩
    · exact (congrArg Progress.live hp).trans rfl
    · exact (congrArg Progress.live hp).trans rfl
  · intro pending hc
    rcases placing_of_mayStore hmay with hp | ⟨target, hp⟩
    · cases hp.symm.trans hc
    · cases hp.symm.trans hc

section

variable (h : s.Tracking)

include h

namespace Tracking

theorem collects {pending done : List Nat} (hp : s.progress n = .fanning pending)
    (hdone : done.all s.isOver = true) : Evolves s (s.setProgress n (.fanning (pending.filter (· ∉ done)))) := by
  refine .moves (moves_setProgress (by rw [hp]; rfl) (.inl rfl) rfl ?_ fun _ _ => h.fanning n pending hp)
  intro pending' hp'
  cases hp.symm.trans hp'
  refine ⟨_, rfl, ?_⟩
  intro m hm hover
  refine mem_filter.mpr ⟨hm, decide_eq_true ?_⟩
  intro hin
  exact hover (of_decide_eq_true (all_eq_true.mp hdone m hin))

theorem requests (hgate : s.gate.admitOperation operation = .ok ()) (hread : operation ≠ .read) :
    Evolves s { s.enlist (.mutation operation) [.placing] with mutations := s.next :: s.mutations } := by
  have he := h.enlisted (.mutation operation) .placing
  refine .enlists ⟨he.next, he.role, he.progress, he.reopened, he.gate,
    fun m hm => mem_cons_of_mem _ hm, he.pendingWrites⟩ nofun nofun ?_ nofun
  intro _ _
  refine ⟨mem_cons_self .., ?_⟩
  cases hclosed : s.gate.acceptingOperations with
  | true => rfl
  | false =>
    rw [Gate.refuses hclosed hread] at hgate
    cases hgate

theorem evolves_step {a : StoreAction} (ha : a ≠ .resume) : Evolves s (s.step a) := by
  cases a with
  | resume => cases ha rfl
  | pause readable => exact .alike (s.alike_pause readable)
  | stopReadRepairs => exact .alike ⟨rfl, rfl, rfl, rfl, rfl, id, fun _ hm _ => hm⟩
  | request operation =>
    dsimp only [step]
    split
    · exact .refl s
    · rename_i hgate
      split
      · exact .refl s
      · rename_i hread
        exact h.requests hgate hread
  | readRepair target =>
    dsimp only [step]
    split
    · have he := h.enlisted .readRepair (.posting target)
      exact .enlists ⟨he.next, he.role, he.progress, he.reopened, he.gate, he.mutations,
        fun m hm => mem_cons_of_mem _ hm⟩ nofun nofun nofun nofun
    · exact .refl s
  | outsider => exact .enlists (h.enlisted .outsider .placing) nofun nofun nofun nofun
  | fanOut n targets =>
    dsimp only [step]
    split
    · rename_i operation hrole hp
      split
      · exact .fans ⟨⟨operation, hrole⟩, by rw [hp]; nofun⟩ hp
          (fanned (h.lt_next (by rw [hp]; nofun)) targets)
      · exact .refl s
    · exact .refl s
  | store n group =>
    dsimp only [step]
    split
    · rename_i hmay
      exact evolves_store hmay
    · exact .refl s
  | conclude n =>
    dsimp only [step]
    split
    · rename_i hp
      exact .moves (moves_close (by rw [hp]; rfl) (by rw [hp]; nofun))
    · rename_i hp
      exact .moves (moves_close (by rw [hp]; rfl) (by rw [hp]; nofun))
    · exact .refl s
  | session n move =>
    dsimp only [step]
    split
    · rename_i hp
      exact evolves_inSession hp _
    · exact .refl s
  | work group executor fails => exact .alike (s.alike_setPool _ _)
  | collect n done =>
    dsimp only [step]
    split
    · rename_i hp
      split
      · rename_i hdone
        exact h.collects hp hdone
      · exact .refl s
    · exact .refl s
  | leave n =>
    dsimp only [step]
    split
    · rename_i hp
      exact .moves (moves_leave hp)
    · exact .refl s
  | cancel n => exact s.evolves_cancel n
  | settleDetached n =>
    dsimp only [step]
    split
    · rename_i hover
      refine .alike ⟨rfl, rfl, rfl, rfl, rfl, id, ?_⟩
      intro m hm hne
      refine mem_filter.mpr ⟨hm, decide_eq_true ?_⟩
      rintro rfl
      exact hne (of_decide_eq_true hover)
    · exact .refl s
  | drain => exact h.drain
  | wake d => exact h.wake d

section

variable (a : StoreAction)

theorem step : (s.step a).Tracking := by
  by_cases ha : a = .resume
  · rw [ha]
    exact h.resume
  · exact h.evolves (h.evolves_step ha)

theorem over_step (hn : s.progress n = .ended) : (s.step a).progress n = .ended := by
  by_cases ha : a = .resume
  · rw [ha]
    exact hn
  · exact ((h.evolves_step ha).later h).ended n hn

theorem role_step (hn : n < s.next) : (s.step a).role n = s.role n := by
  by_cases ha : a = .resume
  · rw [ha]
    rfl
  · exact ((h.evolves_step ha).later h).role n hn

theorem next_step : s.next ≤ (s.step a).next := by
  by_cases ha : a = .resume
  · rw [ha]
    exact Nat.le_refl _
  · exact ((h.evolves_step ha).later h).next

end

theorem paused_run (hgate : s.gate.acceptingOperations = false) {acts : List StoreAction}
    (hacts : .resume ∉ acts) (hn : (s.run acts).role n = .mutation operation) : s.role n = .mutation operation := by
  induction acts generalizing s with
  | nil => exact hn
  | cons a acts ih =>
    rw [mem_cons, not_or] at hacts
    have hlater := (h.evolves_step (Ne.symm hacts.1)).later h
    exact hlater.admitted hgate n operation (ih (h.step a) (hlater.gate hgate) hacts.2 hn)

end Tracking

end

theorem tracking_initial (maxWriters : Nat) : (initial maxWriters).Tracking where
  fresh _ _ := rfl
  mutations _ hu := nomatch hu.1
  writes _ _ hrole := nomatch hrole
  fanning _ _ hp := nomatch hp
  closed _ hd := nomatch hd
  held _ _ := trivial

theorem Tracking.run (h : s.Tracking) (acts : List StoreAction) : (s.run acts).Tracking := by
  induction acts generalizing s with
  | nil => exact h
  | cons a acts ih => exact ih (h.step a)

end StoreService

end Tourillon
