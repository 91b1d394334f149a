import Tourillon.AntiEntropy.World
import Tourillon.Library.Termination

namespace Tourillon

open Prog

structure Undisturbed (c : Cluster) (I : World → Prop) : Prop where
  step : ∀ w, I w → I { w with shared := c.env.step w.tick w.shared, tick := w.tick + 1 }
  fold : ∀ w sets, I w → I { w with folds := sets ++ w.folds }

namespace Undisturbed

variable {c : Cluster} {I : World → Prop} {node : String} {group : Nat} {α : Type}
  {f : GroupStorage → Except PyError α} {Q : α → Prop} (h : Undisturbed c I)

include h

theorem interfere : Yields I c.interfere fun _ => True := Yields.modify h.step

theorem noteFolds (sets : List (Finset Key)) :
    Yields I (Cluster.noteFolds sets) fun _ => True := Yields.modify fun w hw => h.fold w sets hw

variable (hf : ∀ w, I w → ∃ a, f (w.shared.storage node group) = .ok a ∧ Q a)

include hf

theorem readSession : Yields I (c.readSession node group f) Q := by
  apply Yields.bind h.interfere
  intro _ _
  apply Yields.bind Yields.get
  intro w hw
  apply Yields.bind (M := Q)
  · obtain ⟨a, ha, hq⟩ := hf w hw
    exact Yields.lift ⟨a, by rw [ha]; rfl, hq⟩
  intro a ha
  apply Yields.bind h.interfere
  intro _ _
  exact Yields.ret ha

theorem foldSession (sets : α → GroupStorage → List (Finset Key)) :
    Yields I (c.foldSession node group f sets) Q := by
  apply Yields.bind h.interfere
  intro _ _
  apply Yields.bind Yields.get
  intro w hw
  apply Yields.bind (M := Q)
  · obtain ⟨a, ha, hq⟩ := hf w hw
    exact Yields.lift ⟨a, by rw [ha]; rfl, hq⟩
  intro a ha
  apply Yields.bind (h.noteFolds _)
  intro _ _
  apply Yields.bind h.interfere
  intro _ _
  exact Yields.ret ha

end Undisturbed

end Tourillon
