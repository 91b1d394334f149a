import Tourillon.Storage.PoolCommits
import Tourillon.Store.Drained

namespace Tourillon

namespace StoreService

variable {s t : StoreService} {n : Nat}

theorem pools_setPool (s : StoreService) (group group' : Nat) (pool : AsyncThreadPool) :
    (s.setPool group pool).pools group' = if group' = group then pool else s.pools group' := by
  simp only [setPool, Function.update_apply]

structure Acts (group : Nat) (a : SessionAction) (s t : StoreService) : Prop where
  pools : t.pools = (s.setPool group ((s.pools group).step true a)).pools
  elsewhere : ∀ n group', group' ≠ group → s.progress n = .storing group' →
    t.progress n = .storing group'
  here : ∀ n, t.progress n ≠ .storing group →
    ((s.pools group).step true a).stages n = .left ∨ s.progress n ≠ .storing group ∧ a ≠ .enter n
  cancels : ∀ n, a = .cancel n → (s.role n).cancellable = true ∧ s.progress n = .storing group

def Rests (s t : StoreService) : Prop :=
  t.pools = s.pools ∧ ∀ n group, s.progress n = .storing group → t.progress n = .storing group

theorem Rests.refl (s : StoreService) : Rests s s := ⟨rfl, fun _ _ => id⟩

theorem Rests.trans {u : StoreService} (h : Rests s t) (h' : Rests t u) : Rests s u :=
  ⟨h'.1.trans h.1, fun n group hn => h'.2 n group (h.2 n group hn)⟩

theorem rests_setProgress {progress : Progress} (h : ∀ group, s.progress n ≠ .storing group) :
    Rests s (s.setProgress n progress) := by
  refine ⟨rfl, ?_⟩
  intro m group hm
  refine (Function.update_of_ne ?_ _ _).trans hm
  rintro rfl
  exact h group hm

theorem rests_close (h : ∀ group, s.progress n ≠ .storing group) : Rests s (s.close n) :=
  ⟨rfl, (rests_setProgress h).2⟩

theorem rests_leave (h : ∀ group, s.progress n ≠ .storing group) (pending : List Nat) :
    Rests s (s.leave n pending) := ⟨rfl, (rests_setProgress h).2⟩

theorem rests_flush {d : Nat} (h : ∀ group, s.progress d ≠ .storing group) : Rests s (s.flush d) := by
  unfold StoreService.flush
  split
  · exact rests_setProgress h
  · exact rests_setProgress h

theorem Tracking.rests_enlist (h : s.Tracking) (role : Role) (works : List Progress) :
    Rests s (s.enlist role works) := by
  refine ⟨rfl, ?_⟩
  intro m group hm
  rw [progress_enlist_of_lt (h.lt_next (by rw [hm]; nofun)), hm]

theorem acts_inSession {group : Nat} {a : SessionAction} (hp : s.progress n = .storing group)
    (ha : a.session = some n) (henter : a ≠ .enter n) (hcancel : a = .cancel n → (s.role n).cancellable = true) :
    Acts group a s (s.inSession n group a) := by
  have hother (m : Nat) (hne : m ≠ n) : a ≠ .enter m := by
    rintro rfl
    exact hne (Option.some.inj ha)
  have hcancels (m : Nat) (hm : a = .cancel m) :
      (s.role m).cancellable = true ∧ s.progress m = .storing group := by
    obtain rfl : m = n := by
      rw [hm] at ha
      exact Option.some.inj ha
    exact ⟨hcancel hm, hp⟩
  unfold StoreService.inSession
  dsimp only
  split
  · rename_i hleft
    refine ⟨rfl, ?_, ?_, hcancels⟩
    · intro m group' hgroup hs
      refine (Function.update_of_ne ?_ _ _).trans hs
      rintro rfl
      exact hgroup (Progress.storing.inj (hs.symm.trans hp))
    · intro m hm
      rcases eq_or_ne m n with rfl | hne
      · exact .inl hleft
      · refine .inr ⟨fun hs => hm ?_, hother m hne⟩
        exact (Function.update_of_ne hne _ _).trans hs
  · refine ⟨rfl, fun _ _ _ hs => hs, ?_, hcancels⟩
    intro m hm
    refine .inr ⟨hm, hother m ?_⟩
    rintro rfl
    exact hm hp

theorem acts_store {group : Nat} (hmay : s.mayStore n = true) :
    Acts group (.enter n) s ((s.setPool group ((s.pools group).step true (.enter n))).setProgress n
      (.storing group)) := by
  refine ⟨rfl, ?_, ?_, nofun⟩
  · intro m group' _ hs
    refine (Function.update_of_ne ?_ _ _).trans hs
    rintro rfl
    rcases placing_of_mayStore hmay with hp | ⟨target, hp⟩
    · cases hp.symm.trans hs
    · cases hp.symm.trans hs
  · intro m hm
    have hne : m ≠ n := by
      rintro rfl
      exact hm (Function.update_self ..)
    refine .inr ⟨fun hs => hm ?_, fun hc => hne (SessionAction.enter.inj hc).symm⟩
    exact (Function.update_of_ne hne _ _).trans hs

theorem acts_work (s : StoreService) (group executor : Nat) (fails : Bool) : Acts group (.work executor fails) s
      (s.setPool group ((s.pools group).step true (.work executor fails))) :=
  ⟨rfl, fun _ _ _ hs => hs, fun _ hm => .inr ⟨hm, nofun⟩, nofun⟩

theorem Tracking.contact_step (h : s.Tracking) (a : StoreAction) :
    Rests s (s.step a) ∨ ∃ group b, Acts group b s (s.step a) ∧ ∀ n, b = .cancel n → a = .cancel n := by
  cases a with
  | pause readable => exact .inl ⟨rfl, fun _ _ => id⟩
  | resume => exact .inl ⟨rfl, fun _ _ => id⟩
  | stopReadRepairs => exact .inl ⟨rfl, fun _ _ => id⟩
  | request operation =>
    have hrests := h.rests_enlist (.mutation operation) [.placing]
    dsimp only [StoreService.step]
    split
    · exact .inl (.refl s)
    · split
      · exact .inl (.refl s)
      · exact .inl ⟨rfl, hrests.2⟩
  | readRepair target =>
    have hrests := h.rests_enlist .readRepair [.posting target]
    dsimp only [StoreService.step]
    split
    · exact .inl ⟨rfl, hrests.2⟩
    · exact .inl (.refl s)
  | outsider => exact .inl (h.rests_enlist .outsider [.placing])
  | fanOut n targets =>
    dsimp only [StoreService.step]
    split
    · rename_i hp
      split
      · refine .inl ((h.rests_enlist _ _).trans (rests_setProgress ?_))
        rw [progress_enlist_of_lt (h.lt_next (by rw [hp]; nofun)), hp]
        nofun
      · exact .inl (.refl s)
    · exact .inl (.refl s)
  | store n group =>
    dsimp only [StoreService.step]
    split
    · rename_i hmay
      exact .inr ⟨group, _, acts_store hmay, nofun⟩
    · exact .inl (.refl s)
  | conclude n =>
    dsimp only [StoreService.step]
    split
    · rename_i hp
      exact .inl (rests_close (by rw [hp]; nofun))
    · rename_i hp
      exact .inl (rests_close (by rw [hp]; nofun))
    · exact .inl (.refl s)
  | session n move =>
    have hmove : (move.of n).session = some n ∧ move.of n ≠ .enter n ∧ ∀ m, move.of n ≠ .cancel m := by
      cases move <;> exact ⟨rfl, nofun, nofun⟩
    dsimp only [StoreService.step]
    split
    · rename_i group hp
      exact .inr ⟨group, _, acts_inSession hp hmove.1 hmove.2.1 fun hc => absurd hc (hmove.2.2 n),
        fun m hc => absurd hc (hmove.2.2 m)⟩
    · exact .inl (.refl s)
  | work group executor fails => exact .inr ⟨group, _, s.acts_work group executor fails, nofun⟩
  | collect n done =>
    dsimp only [StoreService.step]
    split
    · rename_i hp
      split
      · exact .inl (rests_setProgress (by rw [hp]; nofun))
      · exact .inl (.refl s)
    · exact .inl (.refl s)
  | leave n =>
    dsimp only [StoreService.step]
    split
    · rename_i pending hp
      exact .inl (rests_leave (by rw [hp]; nofun) pending)
    · exact .inl (.refl s)
  | cancel n =>
    dsimp only [StoreService.step, StoreService.cancel]
    split
    · rename_i hcancellable
      split
      · rename_i hp
        exact .inl (rests_close (by rw [hp]; nofun))
      · rename_i group hp
        refine .inr ⟨group, _, acts_inSession hp rfl nofun fun _ => hcancellable, ?_⟩
        intro m hm
        cases hm
        rfl
      · rename_i pending hp
        exact .inl (rests_leave (by rw [hp]; nofun) pending)
      · rename_i hp
        exact .inl (rests_setProgress (by rw [hp]; nofun))
      · rename_i hp
        exact .inl (rests_setProgress (by rw [hp]; nofun))
      · exact .inl (.refl s)
    · exact .inl (.refl s)
  | settleDetached n =>
    dsimp only [StoreService.step]
    split
    · exact .inl ⟨rfl, fun _ _ => id⟩
    · exact .inl (.refl s)
  | drain =>
    have hpaused : Tracking { s with gate := s.gate.pause true } := h.alike (s.alike_pause true)
    have hrests : Rests s ({ s with gate := s.gate.pause true }.enlist .drain
        [.settling s.mutations]) := ⟨rfl, (hpaused.rests_enlist .drain _).2⟩
    dsimp only [StoreService.step, StoreService.drain]
    split
    · refine .inl (hrests.trans (rests_flush ?_))
      rw [(hpaused.enlisted .drain _).progress, if_pos rfl]
      nofun
    · exact .inl hrests
  | wake d =>
    dsimp only [StoreService.step, StoreService.wake]
    split
    · rename_i hp
      split
      · exact .inl (rests_flush (by rw [hp]; nofun))
      · exact .inl (.refl s)
    · rename_i hp
      split
      · exact .inl (rests_setProgress (by rw [hp]; nofun))
      · exact .inl (.refl s)
    · exact .inl (.refl s)

end StoreService

end Tourillon
