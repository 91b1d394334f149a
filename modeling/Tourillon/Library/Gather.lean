import Mathlib.Data.List.Basic
import Mathlib.Data.List.Dedup

namespace Gather

variable {τ σ : Type} [DecidableEq τ] {running : List τ} {s : σ}

structure Outcome (τ σ : Type) where
  state : σ
  running : List τ
  expired : Bool

def awaitRest (collect : List τ → σ → σ) (stop : σ → Bool) : List (List τ) → List τ → σ → Outcome τ σ
  | arrivals, running, s =>
    if running = [] ∨ stop s = true then ⟨s, running, false⟩
    else match arrivals with
      | [] => ⟨s, running, true⟩
      | batch :: rest =>
        match batch.dedup.filter fun t => t ∈ running with
        | [] => ⟨s, running, true⟩
        | t :: done => awaitRest collect stop rest (running.filter fun u => u ∉ t :: done)
            (collect (t :: done) s)

def gather (collect : List τ → σ → σ) (stop : σ → Bool) (arrivals : List (List τ))
    (running : List τ) (s : σ) : Outcome τ σ :=
  if running = [] then awaitRest collect stop arrivals running s
  else
    let done := (arrivals.headD []).dedup.filter fun t => t ∈ running
    awaitRest collect stop arrivals.tail (running.filter fun u => u ∉ done) (collect done s)

variable {collect : List τ → σ → σ} {stop : σ → Bool} {I : List τ → σ → Prop}

section

variable (hstep : ∀ running s done, I running s → done.Nodup → (∀ t ∈ done, t ∈ running) → I (running.filter fun u => u ∉ done) (collect done s))
  (arrivals : List (List τ)) (h : I running s)

include hstep h

theorem awaitRest_inv :
    I (awaitRest collect stop arrivals running s).running (awaitRest collect stop arrivals running s).state := by
  induction arrivals generalizing running s with
  | nil =>
    unfold awaitRest
    split
    · exact h
    · exact h
  | cons batch rest ih =>
    unfold awaitRest
    split
    · exact h
    · dsimp only
      split
      · exact h
      · rename_i t done heq
        have hnodup : (t :: done).Nodup := by
          rw [← heq]
          exact batch.nodup_dedup.filter _
        have hsub (u : τ) (hu : u ∈ t :: done) : u ∈ running := by
          rw [← heq] at hu
          simpa using (List.mem_filter.mp hu).2
        exact ih (hstep running s (t :: done) h hnodup hsub)

theorem gather_inv :
    I (gather collect stop arrivals running s).running (gather collect stop arrivals running s).state := by
  unfold gather
  split
  · exact awaitRest_inv hstep arrivals h
  · refine awaitRest_inv hstep arrivals.tail (hstep running s _ h ?_ ?_)
    · exact (List.nodup_dedup _).filter _
    · intro t ht
      simpa using (List.mem_filter.mp ht).2

end

theorem awaitRest_stopped (arrivals : List (List τ)) (hr : (awaitRest collect stop arrivals running s).running ≠ [])
    (he : (awaitRest collect stop arrivals running s).expired = false) :
    stop (awaitRest collect stop arrivals running s).state = true := by
  induction arrivals generalizing running s with
  | nil =>
    unfold awaitRest at hr he ⊢
    split at hr
    · rename_i hcond
      rw [if_pos hcond] at he ⊢
      exact hcond.resolve_left hr
    · rename_i hcond
      rw [if_neg hcond] at he
      cases he
  | cons batch rest ih =>
    unfold awaitRest at hr he ⊢
    split at hr
    · rename_i hcond
      rw [if_pos hcond] at he ⊢
      exact hcond.resolve_left hr
    · rename_i hcond
      rw [if_neg hcond] at he ⊢
      dsimp only at hr he ⊢
      cases hdone : batch.dedup.filter fun t => t ∈ running with
      | nil =>
        rw [hdone] at he
        cases he
      | cons t done =>
        rw [hdone] at hr he
        exact ih hr he

theorem gather_stopped (arrivals : List (List τ)) (hr : (gather collect stop arrivals running s).running ≠ [])
    (he : (gather collect stop arrivals running s).expired = false) :
    stop (gather collect stop arrivals running s).state = true := by
  unfold gather at hr he ⊢
  split at hr
  · rename_i hnil
    rw [if_pos hnil] at he ⊢
    exact awaitRest_stopped arrivals hr he
  · rename_i hnil
    rw [if_neg hnil] at he ⊢
    exact awaitRest_stopped arrivals.tail hr he

end Gather
