import Tourillon.AntiEntropy.CourierSpec
import Tourillon.AntiEntropy.Reconcile

namespace Tourillon

open Prog Protocol Sequence List Stable

theorem forgetObligations_undisturbed [Blake2b] (commit : Except PyError Unit)
    (obligations : List ObligationKey) (g : GroupStorage) :
    forgetObligations ⟨fun _ => .ok (), commit⟩ obligations g = GroupSessionManager.session (fun s => do
        let s ← s.removeObligations obligations
        return ((), s)) commit g := by
  unfold forgetObligations
  congr 1

theorem isReplica_of_not_covers {view : ReplicaView} {pid : Nat} (h : view.covers [pid] = false)
    (node : String) : view.isReplica pid node = false := by
  have hlen : view.replicas.length ≤ pid := by simpa [ReplicaView.covers] using h
  simp [ReplicaView.isReplica, ReplicaView.replicasOf, getElem?_eq_none hlen]

namespace Courier

variable [Blake2b] (co : Courier) (batch : List ObligationKey) (view : ReplicaView)
  {records : List (Key × Record)} {target : String} {α : Type} {x : Ae α} {A : Chronicle → Prop}
  {obligations : List ObligationKey} {ob : ObligationKey}

def Stocked (ob : ObligationKey) (sh : Shared) : Prop :=
  (sh.storage ob.target (co.partitioner.groupFor ob.key.pid)).Reaches ob.address ob.requiredTs

def Discharged (ob : ObligationKey) (sh : Shared) : Prop :=
  ob ∈ batch ∧ (view.isReplica ob.key.pid ob.target = false ∨ co.Stocked ob sh)

def Accounts (newer older : Shared) : Prop :=
  ∀ i ob, (older.storage co.node i).Owes ob → ¬ (newer.storage co.node i).Owes ob →
    co.Discharged batch view ob older

def chronicle (start : Shared) : Protocol Chronicle where
  inv s := Wholesome s.world.shared ∧ s.history.head? = some s.world.shared ∧
    s.history.getLast? = some start ∧ s.history.IsChain (co.Accounts batch view)
  move s s' := s'.history = s'.world.shared :: s.history ∧ Carries s.world.shared s'.world.shared ∧
    co.Accounts batch view s'.world.shared s.world.shared
  keeps := by
    rintro s s' ⟨_, hhead, hlast, hchain⟩ ⟨hhistory, hcarries, haccounts⟩
    rw [hhistory]
    refine ⟨hcarries.wholesome, rfl, ?_, ?_⟩
    · rw [getLast?_cons, hlast]
      rfl
    · rw [isChain_cons]
      refine ⟨?_, hchain⟩
      intro sh hsh
      rw [hhead] at hsh
      cases hsh
      exact haccounts

variable {co batch view} {start : Shared}

theorem spec_observe {A : World → Prop} {Q : α → World → Prop} (h : co.calm.Spec A x Q) :
    (co.chronicle batch view start).Spec (fun s => A s.world) (observe x) fun a s => Q a s.world := by
  refine Spec.act fun s hs hpre => ?_
  obtain ⟨hreach, hpost⟩ := h s.world hs.1 hpre
  have hmove := continues_of_reach hreach hs.1
  refine ⟨.inr ⟨rfl, hmove.toCarries, ?_⟩, fun a ha => hpost a ha⟩
  intro i ob ho hn
  exact absurd (hmove.owes i ob ho) hn

theorem spec_observe_quiet (h : ∀ w n i, (x w).2.shared.storage n i = w.shared.storage n i) :
    (co.chronicle batch view start).Spec A (observe x) fun _ _ => True := by
  have hcalm : co.calm.Spec (fun _ => True) x fun _ _ => True :=
    Spec.act fun w hw _ => ⟨.inr (hw.congr (h w) co.node), fun _ _ => trivial⟩
  exact (spec_observe hcalm).anywhere

def Due (co : Courier) (batch : List ObligationKey) (view : ReplicaView)
    (obligations : List ObligationKey) (s : Chronicle) : Prop :=
  ∀ ob, ob ∈ obligations → ob ∈ batch ∧
    (ob.target = co.node ∨ view.isReplica ob.key.pid ob.target = false ∨ co.Stocked ob s.world.shared)

theorem stable_due (obligations : List ObligationKey) :
    (co.chronicle batch view start).Stable (co.Due batch view obligations) := by
  intro s s' _ hmove hdue ob hob
  obtain ⟨hin, hcases⟩ := hdue ob hob
  exact ⟨hin, hcases.imp_right (Or.imp_right (hmove.2.1.reaches _ _ _ _))⟩

theorem spec_forget (group : Nat) (obligations : List ObligationKey) :
    (co.chronicle batch view start).Spec (co.Due batch view obligations)
      (observe (co.cluster.commitSession co.node group fun s => do
        let s ← s.removeObligations obligations
        return ((), s))) fun _ _ => True := by
  refine Spec.act fun s hs hdue => ⟨.inr ?_, fun _ _ => trivial⟩
  obtain ⟨hwhole, _⟩ := hs
  obtain ⟨hclean, hcases⟩ := forgetObligations_spec ⟨fun _ => .ok (), co.cluster.env.commit s.world.tick⟩
    obligations (hwhole.clean co.node group)
  rw [forgetObligations_undisturbed] at hclean hcases
  have hforgot : ∃ removed, (∀ o ∈ removed, o ∈ obligations) ∧
      Forgot removed (s.world.shared.storage co.node group)
        (GroupSessionManager.session (fun s => do
          let s ← s.removeObligations obligations
          return ((), s)) (co.cluster.env.commit s.world.tick)
          (s.world.shared.storage co.node group)).2 := by
    rcases hcases with ⟨e, herror⟩ | ⟨_, hforgot⟩
    · rw [herror]
      exact ⟨[], nofun, rfl, rfl, by simp⟩
    · exact ⟨obligations, fun _ ho => ho, hforgot⟩
  obtain ⟨removed, hsub, hforgot⟩ := hforgot
  have heffect : Effect (co.policy co.node) co.node [] (s.world.shared.storage co.node group) _ :=
    .forgot removed hforgot
  refine ⟨rfl, hwhole.transacts hclean heffect, ?_⟩
  intro i ob ho hn
  change ¬ ((s.world.shared.withGroup co.node group _).storage co.node i).Owes ob at hn
  rw [Shared.storage_withGroup] at hn
  split at hn
  · rename_i hw
    rw [hw.2] at ho
    have hmem : ob ∈ removed := by
      by_contra hout
      exact hn ((hforgot.owes ob).mpr ⟨ho, hout⟩)
    obtain ⟨hin, hcase⟩ := hdue ob (hsub ob hmem)
    exact ⟨hin, hcase.resolve_left (hwhole.foreign co.node group ob ho)⟩
  · exact absurd ho hn

theorem spec_removeObligations (obligations : List ObligationKey) :
    (co.chronicle batch view start).Spec (co.Due batch view obligations)
      (co.removeObligations obligations) fun _ _ => True := by
  refine (Spec.each_of_stable (K := fun _ _ => True) (stable_due obligations)
    (fun _ => const _) ?_).post fun _ _ _ _ => trivial
  intro run hrun
  have hpause : co.calm.Spec (fun _ => True) co.cluster.interfere fun _ _ => True := spec_interfere (const _)
  refine Spec.seq (stable_due obligations) (spec_observe hpause).anywhere fun _ => ?_
  refine Spec.bind ((spec_forget run.1 run.2).pre ?_) fun _ => ?_
  · rintro s _ ⟨hdue, _⟩ ob hob
    exact hdue ob ((mem_insertionSort _).mp (mem_of_groupRuns hrun hob).1)
  · exact (spec_observe hpause).anywhere

theorem due_of_delivered {chunk : List ObligationKey} {unique : List Record}
    (hchunk : ∀ ob ∈ chunk, ob ∈ batch ∧ ob.target = target) (hrecords : ∀ e ∈ records, Supersedes e.2 e.1)
    (hunique : uniqueRecords records chunk = .ok unique) {s : Chronicle}
    (h : co.Delivered target unique s.world) : co.Due batch view chunk s := by
  intro ob hob
  obtain ⟨hin, rfl⟩ := hchunk ob hob
  refine ⟨hin, .inr (.inr ?_)⟩
  obtain ⟨r, hr, hkey⟩ := (uniqueRecords_ok hunique).2 ob hob
  obtain ⟨_, haddr, hts⟩ := hrecords _ hr
  obtain ⟨q, hq, hqkey⟩ := mem_map.mp hkey
  have hreach := h q hq
  rw [hqkey] at hreach
  have hpid : r.key.pid = ob.key.pid := congrArg PartitionAddress.pid haddr
  obtain ⟨k, hk, hkaddr, hkts⟩ := hreach
  rw [hpid] at hk
  exact ⟨k, hk, hkaddr.trans haddr, hts.trans hkts⟩

theorem spec_evaluate {r : Except PyError α} :
    (co.chronicle batch view start).Spec A (evaluate r) fun a _ => r = .ok a :=
  Spec.lift fun _ _ _ _ hr => mapError_eq_ok hr

theorem spec_pushObligations (ht : target ≠ co.node) (pid : Nat)
    (ho : ∀ ob ∈ obligations, ob ∈ batch ∧ ob.target = target) (hrecords : ∀ e ∈ records, Supersedes e.2 e.1) :
    (co.chronicle batch view start).Spec (fun _ => True)
      (co.pushObligations target pid obligations records view) fun _ _ => True := by
  refine Spec.bind spec_evaluate fun hash => ?_
  refine Spec.bind spec_evaluate fun chunks => ?_
  refine Spec.assume (p := obligationChunks obligations records co.batchBytes = .ok chunks)
    (fun _ _ h => h) fun hchunks => ?_
  refine Spec.every (const _) fun chunk hchunk => ?_
  have hdebts : ∀ ob ∈ chunk, ob ∈ batch ∧ ob.target = target :=
    fun ob hob => ho ob (mem_of_obligationChunks hchunks hchunk hob)
  refine Spec.bind spec_evaluate fun unique => ?_
  refine Spec.assume (p := uniqueRecords records chunk = .ok unique) (fun _ _ h => h) fun hunique => ?_
  have hclean : ∀ r ∈ unique, CleanRecord r := by
    intro r hr
    obtain ⟨ob, _, hin⟩ := (uniqueRecords_ok hunique).1 r hr
    exact (hrecords _ hin).1
  refine Spec.bind (Spec.attempt (spec_observe (spec_push ht _ hclean)).anywhere) fun outcome => ?_
  cases outcome with
  | ok _ =>
    refine Spec.bind ((spec_removeObligations chunk).pre ?_) fun _ => Spec.ret fun _ _ h => h
    intro s _ h
    exact due_of_delivered hdebts hrecords hunique (h () rfl)
  | error e =>
    dsimp only
    split
    · refine Spec.bind (spec_observe_quiet fun _ _ _ => rfl) fun _ => ?_
      exact Spec.ret fun _ _ h => h
    · exact Spec.raise

theorem spec_deliverTo (ht : target ≠ co.node) (ho : ∀ ob ∈ obligations, ob ∈ batch ∧ ob.target = target)
    (hrecords : ∀ e ∈ records, Supersedes e.2 e.1) : (co.chronicle batch view start).Spec (fun _ => True)
      (co.deliverTo target obligations records view) fun _ _ => True := by
  have heligible : co.calm.Spec (fun _ => True) (Service.eligible co.cluster target)
      fun _ _ => True := by
    refine Spec.bind (Spec.get (Q := fun _ _ => True) fun _ _ _ => trivial) fun w => ?_
    split
    · exact Spec.ret fun _ _ _ => trivial
    · refine Spec.bind (spec_interfere (const _)) fun _ => ?_
      refine Spec.bind (Spec.get (Q := fun _ _ => True) fun _ _ _ => trivial) fun _ => ?_
      exact Spec.ret fun _ _ _ => trivial
  refine Spec.bind (spec_observe heligible) fun up => ?_
  cases up with
  | false =>
    refine spec_observe_quiet fun w n i => ?_
    show ((whenever (w.shared.deferred target = false) (Service.deferPeer target true) >>=
      fun _ => raiseBacklog) w).2.shared.storage n i = w.shared.storage n i
    unfold whenever
    split <;> rfl
  | true =>
    refine Spec.bind (Spec.every (const True) fun run hrun => ?_) fun delivered => ?_
    · exact spec_pushObligations ht run.1 (fun ob hob => ho ob (mem_of_groupRuns hrun hob).1) hrecords
    · cases delivered with
      | true => exact spec_observe_quiet fun _ _ _ => rfl
      | false => exact spec_observe_quiet fun _ _ _ => rfl

omit [Blake2b] in
theorem due_of_obsolete (hob : ob ∈ batch) (h : co.owed view ob = false) (s : Chronicle) :
    ob ∈ batch ∧ (ob.target = co.node ∨
      view.isReplica ob.key.pid ob.target = false ∨ co.Stocked ob s.world.shared) := by
  refine ⟨hob, ?_⟩
  simp only [owed, Bool.and_eq_false_iff, decide_eq_false_iff_not, not_not] at h
  rcases h with (htarget | hcovers) | hreplica
  · exact .inl htarget
  · exact .inr (.inl (isReplica_of_not_covers hcovers _))
  · exact .inr (.inl hreplica)

theorem spec_deliver : (co.chronicle batch view start).Spec (fun _ => True)
    (co.deliver batch view) fun _ _ => True := by
  have howed (ob : ObligationKey) (h : ob ∈ batch.eraseDups.filter (co.owed view)) :
      ob ∈ batch ∧ ob.target ≠ co.node := by
    obtain ⟨hin, hw⟩ := mem_filter.mp h
    simp only [owed, Bool.and_eq_true, decide_eq_true_iff] at hw
    exact ⟨mem_eraseDups.mp hin, hw.1.1⟩
  refine Spec.bind (spec_observe (spec_latestRecords _ [] nofun)) fun records => ?_
  refine Spec.assume (p := ∀ e ∈ records, Supersedes e.2 e.1) (fun _ _ h => h) fun hrecords => ?_
  refine Spec.bind (M := fun _ _ => True) (Spec.whenever
    (fun _ => spec_observe_quiet fun _ _ _ => rfl) fun _ _ _ _ => trivial) fun _ => ?_
  refine Spec.bind spec_evaluate fun ready => ?_
  refine Spec.assume (p := deliveryOrder ((batch.eraseDups.filter (co.owed view)).filter fun ob =>
    (records.lookup ob.key).isSome) = .ok ready) (fun _ _ h => h) fun hready => ?_
  have hmember (ob : ObligationKey) (hob : ob ∈ ready) : ob ∈ batch ∧ ob.target ≠ co.node :=
    howed ob (mem_filter.mp (mem_of_deliveryOrder hready hob)).1
  refine Spec.bind (M := fun _ _ => True) (((Spec.each_of_stable (K := fun _ _ => True)
    (const True) (fun _ => const _) ?_).pre fun _ _ _ => trivial).post
      fun _ _ _ _ => trivial) fun _ => ?_
  · intro run hrun
    have hdebts (ob : ObligationKey) (hob : ob ∈ run.2) : ob ∈ batch ∧ ob.target = run.1 := by
      obtain ⟨hin, hkey⟩ := mem_of_groupRuns hrun hob
      exact ⟨(hmember ob hin).1, hkey⟩
    obtain ⟨ob, hob⟩ := exists_mem_of_ne_nil _ (groupRuns_ne_nil _ _ run hrun)
    obtain ⟨hin, hkey⟩ := mem_of_groupRuns hrun hob
    exact spec_deliverTo (hkey ▸ (hmember ob hin).2) hdebts hrecords
  · refine Spec.whenever (fun _ => (spec_removeObligations _).pre ?_) fun _ _ _ _ => trivial
    intro s _ _ ob hob
    obtain ⟨hin, hout⟩ := mem_filter.mp hob
    refine due_of_obsolete hin ?_ s
    by_contra howes
    rw [Bool.not_eq_false] at howes
    exact (of_decide_eq_true hout) (mem_filter.mpr ⟨mem_eraseDups.mpr hin, howes⟩)

omit [Blake2b] in
theorem owes_of_chain {history : List Shared} (h : history.IsChain (co.Accounts batch view))
    (hob : ob ∉ batch) {i : Nat} {sh latest : Shared} (hlatest : history.head? = some latest)
    (hsh : sh ∈ history) (ho : (sh.storage co.node i).Owes ob) : (latest.storage co.node i).Owes ob := by
  induction history generalizing latest with
  | nil => cases hsh
  | cons newest history ih =>
    cases hlatest
    obtain ⟨hfirst, hrest⟩ := isChain_cons.mp h
    rcases mem_cons.mp hsh with rfl | hold
    · exact ho
    · obtain ⟨next, hnext⟩ := Option.isSome_iff_exists.mp
        (isSome_head?.mpr (ne_nil_of_mem hold))
      have howes := ih hrest hnext hold
      by_contra hgone
      exact hob (hfirst next hnext i ob howes hgone).1

theorem deliver_forgets_settled (co : Courier) (batch : List ObligationKey) (view : ReplicaView)
    (w : World) (h : Arises co.toDeployment w.shared) :
    let s := (co.deliver batch view ⟨w, [w.shared]⟩).2
    s.history.head? = some s.world.shared ∧ s.history.getLast? = some w.shared ∧
      s.history.IsChain (fun newer older => ∀ i ob, (older.storage co.node i).Owes ob →
        ¬ (newer.storage co.node i).Owes ob → ob ∈ batch ∧
          (view.isReplica ob.key.pid ob.target = false ∨ co.Stocked ob older)) ∧
      ∀ i ob, ob ∉ batch → ∀ sh ∈ s.history, (sh.storage co.node i).Owes ob →
        (s.world.shared.storage co.node i).Owes ob := by
  intro s
  have hstart : (co.chronicle batch view w.shared).inv ⟨w, [w.shared]⟩ :=
    ⟨h.wholesome, rfl, rfl, isChain_singleton _⟩
  obtain ⟨_, hhead, hlast, hchain⟩ := (spec_deliver ⟨w, [w.shared]⟩ hstart trivial).1.inv hstart
  refine ⟨hhead, hlast, hchain, ?_⟩
  intro i ob hob sh hsh ho
  exact owes_of_chain hchain hob hhead hsh ho

end Courier

namespace Sample

def debt (wallMs : Nat) : ObligationKey := ⟨"b", (version wallMs).key, named_b, size_b⟩

theorem storable_version (wallMs : Nat) : Storable (version wallMs) where
  owned := rfl
  readable _ := rfl
  quorum := Nat.lt_of_sub_eq_succ rfl

def faultless : Faults := ⟨fun _ => .ok (), .ok ()⟩

def recordDebt (wallMs : Nat) : Activity :=
  .oblige "a" (version wallMs) (storable_version wallMs) ["b"] faultless

def courier : Courier where
  partitioner := ⟨1, 0, Nat.one_pos⟩
  policy := fun _ => ⟨1, Nat.one_pos⟩
  node := "a"
  batchBytes := 4096
  happen := fun t => if t = 4 then [recordDebt 9, .collect "b" 0 [(version 5).key] false faultless] else []
  fault := fun _ => none
  commit := fun _ => .ok ()
  garble := fun _ reply => reply
  nowMs _ := 0
  fuel := 0
  sole := by
    intro t a ha
    split at ha
    · simp only [mem_cons, not_mem_nil, or_false] at ha
      rcases ha with rfl | rfl <;> nofun
    · cases ha

def unstocked : Shared :=
  { shared ["a", "b"] fun _ => [] with
    nodes := fun _ => ⟨fun _ => .empty, ⟨some (view ["a", "b"]), 0⟩, true⟩ }

def indebted : World := world ([recordDebt 5].foldl (Activity.act courier.toDeployment) unstocked)

def settling : Chronicle := (courier.deliver [debt 5] (view ["a", "b"]) ⟨indebted, [indebted.shared]⟩).2

theorem arises_indebted : Arises courier.toDeployment indebted.shared :=
  ⟨unstocked, [recordDebt 5], fun _ _ => rfl, rfl⟩

theorem delivered_debt_forgotten : (indebted.shared.storage "a" 0).Owes (debt 5) ∧
    ¬ (settling.world.shared.storage "a" 0).Owes (debt 5) ∧ settling.history.getLast? = some indebted.shared ∧
    (settling.world.shared.storage "a" 0).Owes (debt 9) := by
  have hbefore : (indebted.shared.storage "a" 0).Owes (debt 5) := by decide +kernel
  have hafter : ¬ (settling.world.shared.storage "a" 0).Owes (debt 5) := by decide +kernel
  have hmeanwhile : ∃ sh ∈ settling.history, (sh.storage "a" 0).Owes (debt 9) := by decide +kernel
  have hsettled := Courier.deliver_forgets_settled courier [debt 5] (view ["a", "b"]) indebted
    arises_indebted
  obtain ⟨sh, hsh, howes⟩ := hmeanwhile
  refine ⟨hbefore, hafter, ?_⟩
  unfold settling at hsh ⊢
  exact ⟨hsettled.2.1, hsettled.2.2.2 0 (debt 9) (by decide +kernel) sh hsh howes⟩

end Sample

end Tourillon
