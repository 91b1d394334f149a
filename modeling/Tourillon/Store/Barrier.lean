import Tourillon.Store.Contact

namespace Tourillon

open StoreService AsyncThreadPool

namespace StoreService

variable {s : StoreService} {n : Nat}

def undisturbed (s : StoreService) : StoreAction → Bool
  | .cancel n =>
    match s.role n, s.progress n with
    | .mutation _, .storing group => !(s.pools group).committing n
    | _, _ => true
  | _ => true

structure Sessions (s : StoreService) : Prop where
  idle : ∀ n group, s.progress n ≠ .storing group → ((s.pools group).stages n).idle = true
  ending : ∀ n group, (s.role n).onBehalf = true ∨ s.next ≤ n → (s.pools group).Ending n
  faithful : ∀ group, (s.pools group).Faithful

theorem sessions_initial (maxWriters : Nat) : (initial maxWriters).Sessions where
  idle _ _ _ := rfl
  ending n _ _ := ending_make maxWriters n
  faithful _ := faithful_make maxWriters

theorem not_committing {group : Nat} (ha : s.undisturbed (.cancel n) = true)
    (hcancellable : (s.role n).cancellable = true) (hbehalf : (s.role n).onBehalf = true)
    (hp : s.progress n = .storing group) : (s.pools group).committing n = false := by
  cases hrole : s.role n with
  | mutation operation =>
    simp only [undisturbed, hrole, hp] at ha
    exact Bool.not_eq_true' _ ▸ ha
  | fanout parent =>
    rw [hrole] at hcancellable
    cases hcancellable
  | _ =>
    rw [hrole] at hbehalf
    cases hbehalf

theorem Tracking.onBehalf_step (h : s.Tracking) (a : StoreAction)
    (hn : ((s.step a).role n).onBehalf = true ∨ (s.step a).next ≤ n) : (s.role n).onBehalf = true ∨ s.next ≤ n := by
  rcases Nat.lt_or_ge n s.next with hlt | hge
  · rw [h.role_step a hlt] at hn
    refine hn.imp id fun hle => ?_
    exact Nat.le_trans (h.next_step a) hle
  · exact .inr hge

section

variable (h : s.Sessions) (ht : s.Tracking)

include h ht

theorem Sessions.step {a : StoreAction} (ha : s.undisturbed a = true) : (s.step a).Sessions := by
  rcases ht.contact_step a with ⟨hpools, hstoring⟩ | ⟨group, b, hacts, hcancel⟩
  · refine ⟨?_, ?_, hpools ▸ h.faithful⟩
    · intro n group hn
      rw [hpools]
      exact h.idle n group fun hs => hn (hstoring n group hs)
    · intro n group hn
      rw [hpools]
      exact h.ending n group (ht.onBehalf_step a hn)
  · refine ⟨?_, ?_, ?_⟩
    · intro n group' hn
      rw [hacts.pools, pools_setPool]
      split
      · rename_i hgroup
        subst hgroup
        rcases hacts.here n hn with hleft | ⟨hs, henter⟩
        · rw [hleft]
          rfl
        · rw [stages_of_idle (h.idle n group' hs) henter]
          exact h.idle n group' hs
      · rename_i hgroup
        exact h.idle n group' fun hs => hn (hacts.elsewhere n group' hgroup hs)
    · intro n group' hn
      have hbehalf := ht.onBehalf_step a hn
      rw [hacts.pools, pools_setPool]
      split
      · rename_i hgroup
        subst hgroup
        apply (h.ending n group' hbehalf).step
        intro hb
        obtain ⟨hcancellable, hp⟩ := hacts.cancels n hb
        rw [hcancel n hb] at ha
        have hlt : n < s.next := ht.lt_next (by rw [hp]; nofun)
        exact not_committing ha hcancellable (hbehalf.resolve_right (Nat.not_le.mpr hlt)) hp
      · exact h.ending n group' hbehalf
    · intro group'
      rw [hacts.pools, pools_setPool]
      split
      · exact (h.faithful _).step true b
      · exact h.faithful _

theorem Sessions.run {acts : List StoreAction} (ha : Machine.Along StoreService.step (undisturbed · ·) s acts) :
    (s.run acts).Sessions := by
  induction acts generalizing s with
  | nil => exact h
  | cons a acts ih =>
    obtain ⟨hfirst, hrest⟩ := ha
    exact ih (h.step ht hfirst) (ht.step a) hrest

theorem Sessions.commits_step (hn : s.progress n = .ended) (hbehalf : (s.role n).onBehalf = true)
    (a : StoreAction) (group : Nat) : ((s.step a).pools group).commitsOf n = (s.pools group).commitsOf n := by
  rcases ht.contact_step a with ⟨hpools, _⟩ | ⟨group', b, hacts, _⟩
  · rw [hpools]
  · rw [hacts.pools, pools_setPool]
    split
    · rename_i hgroup
      rw [hgroup]
      exact commitsOf_step (h.ending n group' (.inl hbehalf)) (h.faithful group')
        (h.idle n group' (by rw [hn]; nofun))
    · rfl

theorem Sessions.commits_run (hn : s.progress n = .ended) (hbehalf : (s.role n).onBehalf = true)
    {acts : List StoreAction} (ha : Machine.Along StoreService.step (undisturbed · ·) s acts) (group : Nat) :
    ((s.run acts).pools group).commitsOf n = (s.pools group).commitsOf n := by
  induction acts generalizing s with
  | nil => rfl
  | cons a acts ih =>
    obtain ⟨hfirst, hrest⟩ := ha
    have hlt : n < s.next := ht.lt_next (by rw [hn]; nofun)
    have hbehalf' : ((s.step a).role n).onBehalf = true := by
      rw [ht.role_step a hlt]
      exact hbehalf
    exact (ih (h.step ht hfirst) (ht.step a) (ht.over_step a hn) hbehalf' hrest).trans
      (h.commits_step ht hn hbehalf a group)

end

theorem drain_is_barrier (maxWriters : Nat) (before after : List StoreAction)
    (h : Machine.Along StoreService.step (undisturbed · ·) (initial maxWriters) (before ++ after)) :
    (∀ readable more, .resume ∉ more → ∀ n operation,
      ((((initial maxWriters).run before).step (.pause readable)).run more).role n =
          .mutation operation → ((initial maxWriters).run before).role n = .mutation operation) ∧
    ∀ d, ((initial maxWriters).run before).progress d = .returned → ((initial maxWriters).run before).reopened ≤ d →
      (∀ n operation, ((initial maxWriters).run before).role n = .mutation operation →
        ((initial maxWriters).run before).progress n = .ended) ∧
      (∀ n parent, ((initial maxWriters).run before).role n = .fanout parent →
        ((initial maxWriters).run before).progress n = .ended) ∧
      ∀ n, (((initial maxWriters).run before).role n).onBehalf = true → ∀ group,
        (((initial maxWriters).run (before ++ after)).pools group).commitsOf n =
          (((initial maxWriters).run before).pools group).commitsOf n := by
  have htracking := (tracking_initial maxWriters).run before
  obtain ⟨hbefore, hafter⟩ := Machine.along_append.mp h
  rw [← run] at hafter
  have hsessions := (sessions_initial maxWriters).run (tracking_initial maxWriters) hbefore
  rw [run_append]
  generalize (initial maxWriters).run before = s at htracking hsessions hafter
  refine ⟨?_, ?_⟩
  · intro readable more hmore n operation hn
    exact (htracking.step (.pause readable)).paused_run rfl hmore hn
  · intro d hd hle
    have hheld := htracking.held d hle
    rw [hd] at hheld
    obtain ⟨hnone, hsent⟩ := hheld
    have hmutations (n : Nat) (operation : StoreOperation) (hn : s.role n = .mutation operation) :
        s.progress n = .ended := by
      by_contra hover
      exact hnone n ⟨⟨operation, hn⟩, hover⟩
    have hfanouts (n parent : Nat) (hn : s.role n = .fanout parent) : s.progress n = .ended := by
      by_contra hover
      exact hsent n ⟨⟨parent, hn⟩, hover⟩
    refine ⟨hmutations, hfanouts, ?_⟩
    intro n hbehalf group
    have hover : s.progress n = .ended := by
      cases hrole : s.role n with
      | mutation operation => exact hmutations n operation hrole
      | fanout parent => exact hfanouts n parent hrole
      | _ =>
        rw [hrole] at hbehalf
        cases hbehalf
    exact hsessions.commits_run htracking hover hbehalf hafter group

end StoreService

namespace Sample

def cancelledWrite : List StoreAction :=
  [.request .replicationWrite, .store 0 0, .session 0 (.acquire 0), .work 0 0 false,
    .session 0 .resume, .session 0 .request, .work 0 0 false, .session 0 .resume,
    .session 0 .finish, .cancel 0, .drain]

theorem commit_lands_after_drain : ((initial 1).run cancelledWrite).progress 1 = .returned ∧
      ((initial 1).run cancelledWrite).reopened ≤ 1 ∧
      ((initial 1).run cancelledWrite).role 0 = .mutation .replicationWrite ∧
      (((initial 1).run cancelledWrite).pools 0).commitsOf 0 = [] ∧
      (((initial 1).run (cancelledWrite ++ [.work 0 0 false])).pools 0).commitsOf 0 = [(0, .ended 0 true)] := by
  decide +kernel

def detachedPut : List StoreAction :=
  [.request .write, .fanOut 0 [⟨true, false⟩, ⟨false, false⟩], .store 1 0, .session 1 (.acquire 0),
    .work 0 0 false, .session 1 .resume, .session 1 .request, .work 0 0 false, .session 1 .resume,
    .session 1 .finish, .cancel 0, .drain, .work 0 0 false, .session 1 .resume, .store 2 0,
    .session 2 (.acquire 0), .work 0 0 false, .session 2 .resume, .session 2 .finish, .work 0 0 false,
    .session 2 .resume, .wake 3]

theorem drain_waits_for_detached_writes : ((initial 1).run detachedPut).progress 3 = .returned ∧
      (((initial 1).run detachedPut).pools 0).commitsOf 2 = [(0, .ended 2 true)] ∧
      (((initial 1).run (detachedPut ++ [.work 0 0 false])).pools 0).commitsOf 2 =
        (((initial 1).run detachedPut).pools 0).commitsOf 2 := by
  have hreturned : ((initial 1).run detachedPut).progress 3 = .returned := by decide +kernel
  have hbarrier := (drain_is_barrier 1 detachedPut [.work 0 0 false]
    (by decide +kernel)).2 3 hreturned (by decide +kernel)
  exact ⟨hreturned, by decide +kernel, hbarrier.2.2 2 (by decide +kernel) 0⟩

end Sample

end Tourillon
