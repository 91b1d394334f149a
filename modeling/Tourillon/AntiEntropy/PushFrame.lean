import Tourillon.AntiEntropy.Reconcile
import Tourillon.Storage.Frame

namespace Tourillon

open Exceptional Prog Protocol StorageCall

structure PidOnly (pid : Nat) (g g' : GroupStorage) : Prop where
  logs : ∀ k b, k.pid ≠ pid → Key.toBytes .logs k = .ok b → g'.get .logs b = g.get .logs b
  tags : ∀ k b, k.pid ≠ pid → Key.toBytes .tags k = .ok b → g'.get .tags b = g.get .tags b
  roots : ∀ q ref, q ≠ pid → rootKey q = .ok ref → g'.get .metadata ref = g.get .metadata ref
  buckets : ∀ q bucket ref, q ≠ pid → bucketKey q bucket = .ok ref →
    g'.get .metadata ref = g.get .metadata ref
  obligations : ∀ o b, ObligationKey.toBytes o = .ok b → g'.get .metadata b = g.get .metadata b

theorem PidOnly.refl (pid : Nat) (g : GroupStorage) : PidOnly pid g g :=
  ⟨fun _ _ _ _ => rfl, fun _ _ _ _ => rfl, fun _ _ _ _ => rfl, fun _ _ _ _ _ => rfl, fun _ _ _ => rfl⟩

theorem Framed.pidOnly {keys : List Key} {touched : Key → Prop} {g g' : GroupStorage}
    (h : Framed keys [] touched g g') {pid : Nat} (hkeys : ∀ k ∈ keys, k.pid = pid) : PidOnly pid g g' where
  logs k b hk hb := h.logs k b (fun hin => hk (hkeys k hin)) hb
  tags k b hk hb := h.tags k b (fun hin => hk (hkeys k hin)) hb
  roots q ref hq href := by
    refine h.roots q ref href ?_
    intro k hk heq
    exact hq (heq.symm.trans (hkeys k (h.named k hk).1))
  buckets q bucket ref hq href := by
    refine h.buckets q bucket ref href ?_
    rintro k hk ⟨heq, _⟩
    exact hq (heq.symm.trans (hkeys k (h.named k hk).1))
  obligations o b hb := h.obligations o b List.not_mem_nil hb

inductive PushMove (c : Cluster) (node : String) (pid : Nat) (w : World) : World → Prop where
  | env : PushMove c node pid w { w with shared := c.env.step w.tick w.shared, tick := w.tick + 1 }
  | store (g : GroupStorage) (h : PidOnly pid (w.shared.storage node (c.groupFor pid)) g) :
    PushMove c node pid w { w with shared := w.shared.withGroup node (c.groupFor pid) g }

def pushing (c : Cluster) (node : String) (pid : Nat) : Protocol World where
  inv _ := True
  move := PushMove c node pid
  keeps _ _ := trivial

section Push

variable {c : Cluster} {node : String} {pid : Nat} {batch : List Record}

theorem spec_push_interfere : (pushing c node pid).Spec (fun _ => True) c.interfere fun _ _ => True :=
  Spec.modify fun _ _ _ => ⟨.inr PushMove.env, trivial⟩

theorem spec_push_python {α : Type} (r : Except PyError α) :
    (pushing c node pid).Spec (fun _ => True) (Cluster.python r) fun a _ => r = .ok a :=
  Spec.lift fun _ _ _ _ hr => mapError_eq_ok hr

variable [Blake2b]

theorem pidOnly_apply {p : RetentionPolicy} (hpid : ∀ r ∈ batch, r.key.pid = pid)
    {commit : Except PyError Unit} {g g' : GroupStorage} {r : Except PyError (List WriteDisposition)}
    (h : GroupSessionManager.session (fun s => p.apply s batch) commit g = (r, g')) : PidOnly pid g g' := by
  rcases session_cases h with ⟨_, _, rfl⟩ | ⟨ds, s, s', _, hb, hf, rfl⟩
  · exact PidOnly.refl ..
  have hstep := stepFrame_apply hb
  have hframe : StepFrame (batch.map fun r => r.key) []
      (fun k => k ∈ (batch.map fun r => r.key) ∧ k.Encodable) (.start g) s := by
    refine ⟨hstep.logs, hstep.tags, hstep.grows, ?_, hstep.metadata⟩
    intro ref hne
    refine (hstep.deltas ref hne).imp_right ?_
    rintro ⟨k, hk, hturned, href⟩
    exact ⟨k, hk, ⟨hk, hturned.encodable⟩, href⟩
  refine (hframe.framed hf fun _ hk => hk).pidOnly ?_
  intro k hk
  obtain ⟨q, hq, rfl⟩ := List.mem_map.mp hk
  exact hpid q hq

theorem spec_push_commit (hpid : ∀ r ∈ batch, r.key.pid = pid) : (pushing c node pid).Spec (fun _ => True)
      (c.commitSession node (c.groupFor pid) fun s => (c.policy node).apply s batch) fun _ _ => True := by
  apply Spec.act
  intro w _ _
  refine ⟨.inr ?_, fun _ _ => trivial⟩
  rcases hsession : GroupSessionManager.session (fun s => (c.policy node).apply s batch)
    (c.env.commit w.tick) (w.shared.storage node (c.groupFor pid)) with ⟨r, g'⟩
  rw [Cluster.commitSession, hsession]
  exact PushMove.store g' (pidOnly_apply hpid hsession)

theorem spec_push_write (hpid : ∀ r ∈ batch, r.key.pid = pid) : (pushing c node pid).Spec (fun _ => True)
      (c.writeSession node (c.groupFor pid) fun s => (c.policy node).apply s batch) fun _ _ => True := by
  refine Spec.bind spec_push_interfere fun _ => ?_
  refine Spec.bind (spec_push_commit hpid) fun a => ?_
  refine Spec.bind spec_push_interfere fun _ => ?_
  exact Spec.ret fun _ _ _ => trivial

theorem spec_push_apply {records : List Record} (hpid : ∀ r ∈ records, r.key.pid = pid) :
    (pushing c node pid).Spec (fun _ => True) (LocalStore.applyResult c node pid records) fun _ _ => True := by
  refine Spec.bind (M := fun _ _ => True) ?_ fun _ => Spec.ret fun _ _ _ => trivial
  refine (Spec.collect (fun _ _ => True) ?_).post fun _ _ _ _ => trivial
  intro _ batch hbatch
  have hin : ∀ r ∈ batch, r.key.pid = pid := fun r hr => hpid r (mem_of_mem_batches hbatch hr)
  refine Spec.bind (spec_push_write hin) fun outcomes => ?_
  refine Spec.bind spec_push_interfere fun _ => ?_
  exact Spec.ret fun _ _ _ => trivial

theorem spec_pushResult {scope : Scope} (hscope : scope.pid = .ok pid) (records : List Record) :
    (pushing c node pid).Spec (fun _ => True) (Responder.pushResult c node scope records) fun _ _ => True := by
  refine Spec.bind (spec_push_python _) fun _ => ?_
  refine Spec.bind (spec_push_python _).anywhere fun p => ?_
  refine Spec.assume (p := p = pid) ?_ ?_
  · intro w _ h
    exact Except.ok.inj (h.symm.trans hscope)
  rintro rfl
  refine Spec.bind Spec.guard fun _ => ?_
  refine Spec.bind (M := fun _ _ => ∀ r ∈ records, r.key.pid = p) ?_ fun _ => ?_
  · refine Spec.check ?_
    intro _ _ _ hno r hr
    simp only [not_or, not_not, List.all_eq_true, decide_eq_true_eq] at hno
    exact hno.2 r hr
  refine Spec.bind (M := fun _ _ => ∀ r ∈ records, r.key.pid = p) ?_ fun _ => ?_
  · refine Spec.bind (M := fun _ _ => ∀ r ∈ records, r.key.pid = p) (Spec.get fun _ _ h => h) fun w => ?_
    exact Spec.lift fun _ _ _ h _ => h
  refine Spec.assume (fun _ _ h => h) fun hrecords => ?_
  refine (spec_push_apply ?_).anywhere
  intro r hr
  exact hrecords r (List.mem_filter.mp hr).1

theorem storage_touches_only_named :
    (∀ (t : Transaction StorageCall) (g g' : GroupStorage), t.run run g = (.ok (), g') →
      Framed (t.calls.flatMap keys) (t.calls.flatMap obligations) (Touched t.calls (.start g)) g g') ∧
    ∀ (c : Cluster) (node : String) (scope : Scope) (pid : Nat) (records : List Record) (w : World),
      scope.pid = .ok pid → Relation.ReflTransGen (PushMove c node pid) w
        (Responder.pushResult c node scope records w).2 := by
  refine ⟨fun _ _ _ h => framed_of_session h, ?_⟩
  intro c node scope pid records w hscope
  exact (spec_pushResult hscope records w trivial trivial).1

end Push

namespace Sample

def owed : ObligationKey := ⟨"b", (version 5).key, named_b, size_b⟩

def storedAndOwed : Transaction StorageCall where
  calls := [.session (.putMany [version 5]), .session (.putObligations [owed]),
    .apply ⟨1, Nat.one_pos⟩ [version 7], .collect ⟨1, Nat.one_pos⟩ [(version 5).key] false]
  raised := none
  commit := .ok ()

theorem stored_and_owed_framed : Framed [(version 5).key, (version 7).key, (version 5).key] [owed]
      (Touched storedAndOwed.calls (.start .empty)) .empty (storedAndOwed.run run .empty).2 ∧
    Relation.ReflTransGen (PushMove (cluster (still 0)) "b" 0) (only ["b"] "a" 5)
      (Responder.pushResult (cluster (still 0)) "b" ⟨[0], 0, 1⟩ [version 5] (only ["b"] "a" 5)).2 := by
  have hcommitted : (storedAndOwed.run run .empty).1.toOption = some () := by decide +kernel
  refine ⟨storage_touches_only_named.1 storedAndOwed .empty _ (Prod.ext (mem_toOption.mp hcommitted) rfl), ?_⟩
  exact storage_touches_only_named.2 (cluster (still 0)) "b" ⟨[0], 0, 1⟩ 0 [version 5] (only ["b"] "a" 5) rfl

end Sample

end Tourillon
