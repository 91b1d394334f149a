import Tourillon.AntiEntropy.PassSetting

namespace Tourillon

open Prog Protocol Sequence List Service

theorem mem_newProgress {sh : Shared} {q serial : String} {e : (String × String) × Nat}
    (h : e ∈ (sh.newProgress q serial).refs) : e ∈ sh.refs ∨ e = ((q, serial), sh.nextRef) := by
  rcases mem_append.mp h with h | h
  · left
    split at h
    · exact (mem_filter.mp (mem_of_mem_drop h)).1
    · exact (mem_filter.mp h).1
  · exact .inr (mem_singleton.mp h)

namespace PassSetting

variable [Blake2b] {T : PassSetting} {A : World → Prop}

def Faced (T : PassSetting) (q : String) : Prop :=
  (T.src = T.sv.node ∧ T.dst = q) ∨ (T.src = q ∧ T.dst = T.sv.node)

def Sessioned (T : PassSetting) (q : String) (pids : List Nat) (w : World) : Prop :=
  T.Faced q → T.key.pid ∈ pids →
    (T.view.isReplica T.key.pid T.dst = true → T.Timely → T.Settled w) ∧
    (T.src = T.sv.node → ¬ T.Timely → T.key.pid ∈ w.recent ∨ T.Settled w)

theorem spec_syncRoots {q : String} (hq : q ≠ T.sv.node) (pids : List Nat) (epoch ref : Nat) :
    T.protocol.Spec (fun w => q = T.partner → T.Honest w.shared ref ∨ Collided w)
      ((T.sv.peerSync q T.view epoch T.cutoffMs ref).syncRoots T.c pids) fun _ => T.Sessioned q pids := by
  intro w hw hpre
  have hinv : (session hq epoch ref (Collided w)).protocol.inv w := by
    refine ⟨⟨hw.stores, ?_⟩, ?_⟩
    · intro hc r _ hr
      exact (hw.honest r hr).resolve_right hc
    · rcases eq_or_ne q T.partner with rfl | hne
      · exact hpre rfl
      · left
        intro hserve
        exact absurd (T.faces q hq hserve.1) hne
  obtain ⟨hreach, hpost⟩ :=
    Setting.spec_syncRoots (S := session hq epoch ref (Collided w)) pids w hinv trivial
  refine ⟨Relation.ReflTransGen.single (move_of_session hq epoch ref rfl hinv hreach), ?_⟩
  intro a ha hf hp
  obtain ⟨hsettled, hnoted⟩ := hpost a ha T.key.pid hp hf rfl
  exact ⟨hsettled, fun hsrc htime => hnoted hsrc rfl htime⟩

theorem honest_newProgress {sh : Shared} {q serial : String} {r : Nat} (h : T.Honest sh r) :
    T.Honest (sh.newProgress q serial) r := by
  intro hserve htime pos hpos hpass
  dsimp only [Shared.newProgress, Shared.withProgress] at hpos
  split at hpos
  · cases hpos
  · exact (settled_congr rfl).mpr (h hserve htime pos hpos hpass)

theorem fresh_newProgress (sh : Shared) (serial : String) :
    T.Honest (sh.newProgress T.partner serial) sh.nextRef := by
  apply honest_of_vouched
  have hfresh : (sh.newProgress T.partner serial).progress T.partner sh.nextRef = {} := by
    simp [Shared.newProgress, Shared.withProgress]
  rw [hfresh]
  exact vouched_fresh

theorem move_newProgress {w : World} (hw : T.Inv w) (q : String) :
    T.Move w { w with shared := w.shared.newProgress q T.view.serial } where
  inv := by
    refine ⟨hw.stores.congr rfl rfl, ?_⟩
    intro r hr
    rcases mem_newProgress hr with hold | heq
    · exact (hw.honest r hold).imp honest_newProgress id
    · obtain ⟨hkey, rfl⟩ := Prod.mk.inj heq
      obtain rfl := (Prod.mk.inj hkey).1
      exact .inl (fresh_newProgress _ _)
  kept hk := hk
  settled hs := hs
  gone _ hg := hg
  folded _ hA := hA

theorem spec_syncProgress (q : String) : T.protocol.Spec (fun _ => True) (syncProgress q T.view)
      fun ref w => q = T.partner → T.Honest w.shared ref ∨ Collided w := by
  apply Spec.bind (Spec.get (Q := fun w w' => w = w') fun _ _ _ => rfl)
  intro w
  cases hl : w.shared.refs.lookup (q, T.view.serial) with
  | some ref =>
    apply Spec.ret
    rintro w' hw' rfl rfl
    exact hw'.honest ref (mem_of_lookup_eq_some hl)
  | none =>
    apply Spec.bind (M := fun _ w' => q = T.partner → T.Honest w'.shared w.shared.nextRef ∨ Collided w')
    · apply Spec.modify
      rintro w' hw' rfl
      refine ⟨.inr (move_newProgress hw' q), ?_⟩
      rintro rfl
      exact .inl (fresh_newProgress _ _)
    · intro _
      exact Spec.ret fun _ _ h => h

theorem move_deferred {w : World} (hw : T.Inv w) (d : String → Bool) :
    T.Move w { w with shared := { w.shared with deferred := d } } :=
  move_same hw rfl rfl rfl rfl fun _ h => h

theorem spec_deferPeer (hA : ∀ w d, A w → A { w with shared := { w.shared with deferred := d } })
    (peer : String) (deferred : Bool) :
    T.protocol.Spec A (deferPeer peer deferred) fun _ => A := by
  apply Spec.modify
  intro w hw h
  exact ⟨.inr (move_deferred hw _), hA w _ h⟩

theorem spec_guard {Q : World → Prop} {work : Ae Unit}
    (hQ : ∀ w d, Q w → Q { w with shared := { w.shared with deferred := d } })
    (h : T.protocol.Spec A work fun _ => Q) (peer : String) :
    T.protocol.Spec A (guard peer work) fun o w => o = .ok → Q w := by
  apply Spec.bind (Spec.attempt h)
  intro r
  have hdefer (o : SessionOutcome) (ho : o ≠ .ok) :
      T.protocol.Spec (fun w => ∀ a, r = .ok a → Q w)
        (do deferPeer peer true; pure o) fun o w => o = .ok → Q w := by
    apply Spec.bind (spec_deferPeer (A := fun _ => True) (fun _ _ h => h) peer true).anywhere
    intro _
    exact Spec.ret fun _ _ _ heq => absurd heq ho
  cases r with
  | ok a =>
    apply Spec.bind ((spec_deferPeer hQ peer false).pre fun w _ hw => hw a rfl)
    intro _
    exact Spec.ret fun _ _ hw _ => hw
  | error e =>
    cases e with
    | viewChanged => exact Spec.ret fun _ _ _ heq => absurd heq nofun
    | budgetSpent what => exact Spec.ret fun _ _ _ heq => absurd heq nofun
    | rejected code reason => exact hdefer _ nofun
    | transport => exact hdefer _ nofun
    | protocol message => exact hdefer _ nofun
    | unfinished => exact Spec.raise
    | python e =>
      dsimp only
      split
      · exact hdefer _ nofun
      · exact Spec.raise

theorem spec_runSession {q : String} (hq : q ≠ T.sv.node) (pids : List Nat) (epoch : Nat) :
    T.protocol.Spec (fun _ => True) (T.sv.runSession T.c q pids T.view epoch T.cutoffMs)
      fun o w => o = .ok → T.Sessioned q pids w := by
  apply Spec.bind (spec_syncProgress q)
  intro ref
  apply Spec.bind (M := fun _ w => q = T.partner → T.Honest w.shared ref ∨ Collided w)
  · apply Spec.modify
    intro w hw h
    exact ⟨.inr (move_same hw rfl rfl rfl rfl fun _ h => h), h⟩
  · intro _
    apply spec_guard _ (spec_syncRoots hq pids epoch ref)
    intro w d h
    exact h

def Reported (T : PassSetting) (goal : Bool) (x : Handled) (w : World) : Prop :=
  ∀ recent, x.2 = .completed recent → T.Faced x.1.1 → T.key.pid ∈ x.1.2 →
    (T.view.isReplica T.key.pid T.dst = true → T.Timely → T.Settled w) ∧
    (T.src = T.sv.node → goal = false → ¬ T.Timely → T.key.pid ∈ recent ∨ T.Settled w)

theorem stable_reported (goal : Bool) (x : Handled) : T.protocol.Stable (T.Reported goal x) := by
  apply Stable.forall
  intro recent
  apply Stable.imp
  apply Stable.imp
  apply Stable.imp
  apply Stable.and
  · exact stable_settled.imp.imp
  · exact ((Stable.const _).or stable_settled).imp.imp.imp

theorem spec_reachable (peer : String) (phases : List MemberPhase) :
    T.protocol.Spec (fun _ => True) (reachable T.c peer phases) fun _ _ => True := by
  apply Spec.bind (spec_interfere (Stable.const _))
  intro _
  apply Spec.bind (Spec.get (Q := fun _ _ => True) fun _ _ _ => trivial)
  intro w
  exact Spec.ret fun _ _ _ => trivial

theorem spec_exchangePeer (epoch : Nat) (phases : List MemberPhase) (goal : Bool)
    {target : String × List Nat} (ht : target.1 ≠ T.sv.node) : T.protocol.Spec (fun _ => True)
      (T.sv.exchangePeer T.c T.view epoch T.cutoffMs phases goal target) fun o => T.Reported goal (target, o) := by
  apply Spec.bind (spec_reachable target.1 phases)
  intro up
  apply Spec.bind (Spec.get (Q := fun _ _ => True) fun _ _ _ => trivial)
  intro w
  split
  · exact Spec.ret fun _ _ _ => nofun
  split
  · exact Spec.ret fun _ _ _ => nofun
  apply Spec.bind (spec_runSession ht target.2 epoch).anywhere
  intro outcome
  apply Spec.bind (Spec.get (Q := fun a w => a = w ∧ (outcome = .ok → T.Sessioned target.1 target.2 w))
    fun _ _ h => ⟨rfl, h⟩)
  intro w'
  split
  · exact Spec.ret fun _ _ _ => nofun
  · rename_i hok
    apply Spec.ret
    rintro w'' _ ⟨rfl, hs⟩ recent hr hf hp
    obtain ⟨hsettled, hnoted⟩ := hs (not_not.mp hok) hf hp
    refine ⟨hsettled, ?_⟩
    intro hsrc hgoal htime
    rw [hgoal] at hr
    cases hr
    exact hnoted hsrc htime

theorem spec_exchange {targets : List (String × List Nat)} (ht : ∀ x ∈ targets, x.1 ≠ T.sv.node)
    (epoch : Nat) (phases : List MemberPhase) (goal : Bool) : T.protocol.Spec (fun _ => True)
      (T.sv.exchange T.c targets T.view epoch T.cutoffMs phases goal)
      fun result w => ∃ zs : List Handled, result = zs.foldl Exchange.record {} ∧
        (zs.map Prod.fst).Perm targets ∧ ∀ x ∈ zs, T.Reported goal x w := by
  have hperm := perm_insertionSort (fun a b : String × List Nat => a.1 ≤ b.1) targets
  apply Spec.bind ((Spec.collect (fun done w => ∀ x, x ∈ done → T.Reported goal x w) ?_).pre ?_)
  · intro outcomes
    apply Spec.ret
    rintro w _ ⟨hlen, hall⟩
    refine ⟨_, rfl, ?_, hall⟩
    rw [map_fst_zip (le_of_eq hlen.symm)]
    exact hperm
  · intro done x hx
    have hdone : T.protocol.Stable fun w => ∀ y, y ∈ done → T.Reported goal y w :=
      Stable.forall fun y => (stable_reported goal y).imp
    apply (Spec.keep hdone (spec_exchangePeer epoch phases goal (ht x (hperm.mem_iff.mp hx))).anywhere).post
    rintro o w _ ⟨hbefore, hnow⟩ y hy
    rcases mem_append.mp hy with hy | hy
    · exact hbefore y hy
    · rw [mem_singleton.mp hy]
      exact hnow
  · intro w _ _
    nofun

end PassSetting

end Tourillon
