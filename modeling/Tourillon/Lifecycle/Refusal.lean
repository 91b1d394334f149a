import Tourillon.Lifecycle.Epochs

namespace Tourillon

open Machine Startup NodeLifecycle MembershipRequest NodeProcess DrainStage JoinStage

structure Calmer (g g' : Ground) : Prop where
  draining : g'.draining = true → g.draining = true
  refusing : g.gate.acceptingOperations = false → g'.gate.acceptingOperations = false

section Stages

variable {g : Ground}

theorem Calmer.refl (g : Ground) : Calmer g g := ⟨id, id⟩

theorem Calmer.transitionTo (g : Ground) (state : NodeState) (phase : MemberPhase)
    (tokens seeds : Option (List String)) : Calmer g (g.transitionTo state phase tokens seeds) :=
  ⟨fun h => (Bool.and_eq_true_iff.mp h).1, id⟩

theorem Calmer.pause (g : Ground) (readable : Bool) : Calmer g (g.pause readable) := ⟨id, fun _ => rfl⟩

theorem DrainStage.calmer (ok : Bool) (stage : DrainStage) : Calmer g (stage.step g ok).1 := by
  cases stage with
  | settling state =>
    rw [step]
    split
    · exact Calmer.pause g true
    · exact Calmer.pause g true
  | handing state =>
    rw [step]
    split
    · exact ⟨id, fun _ => rfl⟩
    · exact Calmer.refl g
  | idling state => exact Calmer.transitionTo g state .idle none none
  | closing idle => exact ⟨id, id⟩

structure Reopening (g g' : Ground) (stage : JoinStage) (next : Option JoinStage) : Prop where
  draining : g'.draining = true → g.draining = true
  refusing : (∀ ready, stage ≠ .resuming ready) → g.gate.acceptingOperations = false →
    g'.gate.acceptingOperations = false
  waiting : ∀ ready, next = some (.resuming ready) → g'.draining = false

theorem Reopening.of_calmer {g' : Ground} {stage : JoinStage} {next : Option JoinStage}
    (h : Calmer g g') (hnext : ∀ ready, next ≠ some (.resuming ready)) : Reopening g g' stage next :=
  ⟨h.draining, fun _ => h.refusing, fun ready hready => absurd hready (hnext ready)⟩

theorem JoinStage.reopening (ok : Bool) (stage : JoinStage) :
    Reopening g (stage.step g ok).1 stage (stage.step g ok).2 := by
  cases stage with
  | entering state =>
    rw [step]
    split
    · exact .of_calmer ⟨id, id⟩ (by rintro _ ⟨⟩)
    · exact .of_calmer (Calmer.refl g) (by rintro _ ⟨⟩)
  | syncing state =>
    refine .of_calmer (Calmer.refl g) ?_
    cases ok with
    | true => rintro _ ⟨⟩
    | false => rintro _ ⟨⟩
  | announcing state => exact .of_calmer ⟨id, id⟩ (by rintro _ ⟨⟩)
  | filling state =>
    refine .of_calmer (Calmer.refl g) ?_
    cases ok with
    | true => rintro _ ⟨⟩
    | false => rintro _ ⟨⟩
  | completing state =>
    exact ⟨(Calmer.transitionTo g state .ready none none).draining, fun _ => id, fun _ _ => Bool.and_false _⟩
  | failing state => exact .of_calmer (Calmer.transitionTo g state .failed none none) (by rintro _ ⟨⟩)
  | resuming ready => exact ⟨id, fun h => absurd rfl (h ready), by rintro _ ⟨⟩⟩
  | opening ready =>
    rw [step]
    split
    · exact .of_calmer ⟨id, id⟩ (by rintro _ ⟨⟩)
    · exact .of_calmer (Calmer.refl g) (by rintro _ ⟨⟩)
  | closing failed => exact .of_calmer ⟨id, id⟩ (by rintro _ ⟨⟩)

theorem Startup.draining_step {ok locked : Bool} {tokens : List String} (startup : Startup)
    (h : (startup.step g ok locked tokens).1.draining = true) : g.draining = true := by
  cases startup with
  | loading seeds =>
    rw [step] at h
    split at h <;> exact h
  | binding state seeds => exact h
  | idle state seeds =>
    rw [step] at h
    split at h
    · exact h
    · exact (Calmer.transitionTo g state .ready (some tokens) none).draining h
  | reseeding state seeds => exact h
  | locking state =>
    rw [step] at h
    split at h <;> exact h
  | joining stage =>
    have hstage := (reopening (g := g) ok stage).draining
    rw [step] at h
    rcases hstep : stage.step g ok with ⟨g', _ | stage'⟩
    · rw [hstep] at h hstage
      exact hstage h
    · rw [hstep] at h hstage
      exact hstage h
  | syncing ready =>
    rw [step] at h
    split at h <;> exact h
  | resuming ready => exact h
  | listening => exact h
  | pausing =>
    rw [step] at h
    split at h <;> exact h
  | resyncing state =>
    rw [step] at h
    split at h <;> exact h
  | handing state => exact h
  | finished => exact h

def MembershipRequest.drains : MembershipRequest → Bool
  | joinLoading _ => false
  | joinWriting _ _ => false
  | joinWritten _ => false
  | _ => true

structure Answering (g g' : Ground) (request : MembershipRequest) (next : Option MembershipRequest)
    (spawned : Option Spawn) : Prop where
  refusing : g.gate.acceptingOperations = false → g'.gate.acceptingOperations = false
  draining : (∀ state, request ≠ .drainPublishing state) → g'.draining = true → g.draining = true
  drains : ∀ r, next = some r → r.drains = request.drains
  paused : ∀ state, next = some (.drainPublishing state) → g'.gate.acceptingOperations = false
  spawns : ∀ state, spawned = some (.join state) → request.drains = false

theorem Answering.ended (request : MembershipRequest) : Answering g g request none none :=
  ⟨id, fun _ => id, nofun, nofun, nofun⟩

theorem Answering.passed {g' : Ground} {request r : MembershipRequest} (h : Calmer g g')
    (hdrains : r.drains = request.drains) (hpublishing : ∀ state, r ≠ .drainPublishing state) :
    Answering g g' request (some r) none where
  refusing := h.refusing
  draining _ := h.draining
  drains := by
    rintro _ ⟨⟩
    exact hdrains
  paused state hstate := absurd (Option.some.inj hstate) (hpublishing state)
  spawns := nofun

theorem MembershipRequest.answering (tokens : List String) (topology : Topology)
    (request : MembershipRequest) : Answering g (request.step g tokens topology).1 request
      (request.step g tokens topology).2.1 (request.step g tokens topology).2.2 := by
  cases request with
  | joinLoading seeds =>
    rw [step]
    cases g.file with
    | none => exact .ended _
    | some state =>
      dsimp only
      split
      · exact .ended _
      · exact .passed (Calmer.refl g) rfl (by rintro _ ⟨⟩)
  | joinWriting state seeds => exact .passed (Calmer.transitionTo g state .joining _ _) rfl (by rintro _ ⟨⟩)
  | joinWritten joining => exact ⟨id, fun _ => id, by rintro _ ⟨⟩, by rintro _ ⟨⟩, fun _ _ => rfl⟩
  | drainLoading =>
    rw [step]
    cases g.file with
    | none => exact .ended _
    | some state =>
      dsimp only
      split
      · exact .passed (Calmer.refl g) rfl (by rintro _ ⟨⟩)
      · exact .ended _
  | drainChecking state =>
    rw [step]
    split
    · exact .ended _
    · split
      · exact .passed (Calmer.refl g) rfl (by rintro _ ⟨⟩)
      · exact .passed (Calmer.refl g) rfl (by rintro _ ⟨⟩)
  | drainWriting state seeds => exact .passed (Calmer.transitionTo g state .draining _ _) rfl (by rintro _ ⟨⟩)
  | drainPausing state =>
    refine ⟨fun _ => rfl, fun _ => id, ?_, fun _ _ => rfl, by rintro _ ⟨⟩⟩
    rintro _ ⟨⟩
    rfl
  | drainPublishing state => exact ⟨id, fun h => absurd rfl (h state), by rintro _ ⟨⟩, by rintro _ ⟨⟩,
      by rintro _ ⟨⟩⟩

end Stages

structure Refusing (g : Ground) (p : NodeProcess) : Prop where
  refuses : g.draining = true → g.gate.acceptingOperations = false ∧ p.startup = .finished ∧
    ∀ ready, p.joinTask ≠ some (.resuming ready)
  drains : ∀ r, p.request = some r → r.drains = true → p.startup = .finished ∧ p.joinTask = none
  paused : ∀ state, p.request = some (.drainPublishing state) → g.gate.acceptingOperations = false

section Processes

variable {g : Ground} {p : NodeProcess}

theorem Refusing.calm (h : Refusing g p) {g' : Ground} (hcalm : Calmer g g') {p' : NodeProcess}
    (hstartup : p'.startup = p.startup) (hrequest : p'.request = p.request)
    (hjoin : p'.joinTask = p.joinTask) : Refusing g' p' where
  refuses hdraining := by
    obtain ⟨hrefuses, hrest⟩ := h.refuses (hcalm.draining hdraining)
    rw [hstartup, hjoin]
    exact ⟨hcalm.refusing hrefuses, hrest⟩
  drains := by
    rw [hstartup, hrequest, hjoin]
    exact h.drains
  paused state hstate := hcalm.refusing (h.paused state (hrequest ▸ hstate))

theorem Refusing.startup (h : Refusing g p) (ok : Bool) (tokens : List String) :
    Refusing (act g p (.startup ok tokens)).1 (act g p (.startup ok tokens)).2 := by
  by_cases hfinished : p.startup = .finished
  · have hstay : act g p (.startup ok tokens) = (g, p) := by
      obtain ⟨startup, request, joinTask, drainTask, orphans⟩ := p
      cases hfinished
      rfl
    rw [hstay]
    exact h
  · have hdraining : g.draining ≠ true := fun hd => hfinished (h.refuses hd).2.1
    have hstep (hd : (p.startup.step g ok p.locked tokens).1.draining = true) : False :=
      hdraining (draining_step p.startup hd)
    have hspawn (spawned : Spawn) (hs : (p.startup.step g ok p.locked tokens).2.2 = some spawned) :=
      (of_spawn hs).2
    have hrequest (r : MembershipRequest) (hr : p.request = some r) : r.drains ≠ true :=
      fun hdrains => hfinished (h.drains r hr hdrains).1
    unfold act
    dsimp only
    rcases hnext : p.startup.step g ok p.locked tokens with ⟨g', startup', _ | spawned⟩
    · rw [hnext] at hstep
      exact ⟨fun hd => (hstep hd).elim, fun r hr hd => absurd hd (hrequest r hr),
        fun state hstate => absurd rfl (hrequest _ hstate)⟩
    · rw [hnext] at hstep hspawn
      obtain ⟨state, rfl⟩ := hspawn spawned rfl
      exact ⟨fun hd => (hstep hd).elim, fun r hr hd => absurd hd (hrequest r hr),
        fun state hstate => absurd rfl (hrequest _ hstate)⟩

section

variable (p : NodeProcess) (spawned : Option Spawn)

theorem NodeProcess.startup_spawn : (p.spawn spawned).startup = p.startup := by
  rcases spawned with _ | ⟨state⟩ | ⟨state⟩ <;> rfl

theorem NodeProcess.request_spawn : (p.spawn spawned).request = p.request := by
  rcases spawned with _ | ⟨state⟩ | ⟨state⟩ <;> rfl

theorem NodeProcess.joinTask_spawn : (p.spawn spawned).joinTask = p.joinTask ∨
      ∃ state, spawned = some (.join state) ∧ (p.spawn spawned).joinTask = some (.entering state) := by
  rcases spawned with _ | ⟨state⟩ | ⟨state⟩
  · exact .inl rfl
  · exact .inr ⟨state, rfl, rfl⟩
  · exact .inl rfl

end

variable (h : Refusing g p)

include h

theorem Refusing.request (tokens : List String) (topology : Topology) :
    Refusing (act g p (.request tokens topology)).1 (act g p (.request tokens topology)).2 := by
  unfold act
  dsimp only
  cases hrequest : p.request with
  | none => exact h
  | some request =>
    have hanswer := answering (g := g) tokens topology request
    dsimp only
    rcases hstep : request.step g tokens topology with ⟨g', next, spawned⟩
    rw [hstep] at hanswer
    have hjoin := ({ p with request := next } : NodeProcess).joinTask_spawn spawned
    refine ⟨?_, ?_, ?_⟩
    · intro hdraining
      have hbefore : g.gate.acceptingOperations = false ∧ p.startup = .finished ∧
          ∀ ready, p.joinTask ≠ some (.resuming ready) := by
        by_cases hpublishing : ∃ state, request = .drainPublishing state
        · obtain ⟨state, rfl⟩ := hpublishing
          obtain ⟨hfinished, hnone⟩ := h.drains _ hrequest rfl
          exact ⟨h.paused state hrequest, hfinished, by rw [hnone]; exact nofun⟩
        · exact h.refuses (hanswer.draining (fun state hstate => hpublishing ⟨state, hstate⟩) hdraining)
      rw [startup_spawn]
      refine ⟨hanswer.refusing hbefore.1, hbefore.2.1, ?_⟩
      rcases hjoin with hsame | ⟨state, _, hentering⟩
      · rw [hsame]
        exact hbefore.2.2
      · rw [hentering]
        exact nofun
    · rw [startup_spawn, request_spawn]
      intro r hr hdrains
      have hkind : request.drains = true := (hanswer.drains r hr).symm.trans hdrains
      obtain ⟨hfinished, hnone⟩ := h.drains request hrequest hkind
      refine ⟨hfinished, ?_⟩
      rcases hjoin with hsame | ⟨state, hspawned, _⟩
      · exact hsame.trans hnone
      · exact absurd hkind (by rw [hanswer.spawns state hspawned]; nofun)
    · rw [request_spawn]
      exact hanswer.paused

theorem Refusing.join (ok : Bool) : Refusing (act g p (.joinTask ok)).1 (act g p (.joinTask ok)).2 := by
  obtain ⟨startup, request, joinTask, drainTask, orphans⟩ := p
  cases joinTask with
  | none => exact h
  | some stage =>
    have hreopen := reopening (g := g) ok stage
    unfold act
    dsimp only
    rcases hnext : stage.step g ok with ⟨g', next⟩
    rw [hnext] at hreopen
    have hdrains (r : MembershipRequest) (hr : request = some r) (hd : r.drains = true) : False :=
      absurd (h.drains r hr hd).2 nofun
    refine ⟨?_, fun r hr hd => (hdrains r hr hd).elim, fun state hstate => (hdrains _ hstate rfl).elim⟩
    intro hdraining
    obtain ⟨hrefuses, hfinished, hwaiting⟩ := h.refuses (hreopen.draining hdraining)
    refine ⟨hreopen.refusing (fun ready hready => hwaiting ready (congrArg some hready)) hrefuses, hfinished, ?_⟩
    intro ready hready
    exact absurd hdraining (by rw [hreopen.waiting ready hready]; nofun)

theorem Refusing.drain (ok : Bool) : Refusing (act g p (.drainTask ok)).1 (act g p (.drainTask ok)).2 := by
  unfold act
  dsimp only
  cases p.drainTask with
  | none => exact h
  | some stage => exact h.calm (calmer ok stage) rfl rfl rfl

theorem Refusing.orphan (i : Nat) (ok : Bool) : Refusing (act g p (.orphan i ok)).1 (act g p (.orphan i ok)).2 := by
  unfold act
  dsimp only
  cases p.orphans[i]? with
  | none => exact h
  | some stage =>
    have hcalm := calmer (g := g) ok stage
    dsimp only
    rcases hstep : stage.step g ok with ⟨g', _ | next⟩
    · rw [hstep] at hcalm
      exact h.calm hcalm rfl rfl rfl
    · rw [hstep] at hcalm
      exact h.calm hcalm rfl rfl rfl

theorem Refusing.begin {request : MembershipRequest} (hpublishing : ∀ state, request ≠ .drainPublishing state)
    (hdrains : request.drains = true → p.startup = .finished ∧ p.joinTask = none) :
    Refusing g { p with request := some request } where
  refuses := h.refuses
  drains := by
    rintro _ ⟨⟩
    exact hdrains
  paused state hstate := absurd (Option.some.inj hstate) (hpublishing state)

theorem Refusing.act (a : LifecycleAction) (hdrain : a = .requestDrain → p.startup = .finished) :
    Refusing (NodeLifecycle.act g p a).1 (NodeLifecycle.act g p a).2 := by
  cases a with
  | startup ok tokens => exact h.startup ok tokens
  | request tokens topology => exact h.request tokens topology
  | joinTask ok => exact h.join ok
  | drainTask ok => exact h.drain ok
  | orphan i ok => exact h.orphan i ok
  | boot config seeds => exact h
  | crash => exact h
  | failStartup =>
    refine ⟨?_, ?_, h.paused⟩
    · intro hdraining
      exact ⟨(h.refuses hdraining).1, rfl, (h.refuses hdraining).2.2⟩
    · intro r hr hdrains
      exact ⟨rfl, (h.drains r hr hdrains).2⟩
  | requestJoin seeds =>
    unfold NodeLifecycle.act
    dsimp only
    split
    · exact h.begin nofun nofun
    · exact h
  | requestDrain =>
    unfold NodeLifecycle.act
    dsimp only
    split
    · rename_i hfree
      refine h.begin nofun fun _ => ⟨hdrain rfl, ?_⟩
      simp only [Bool.and_eq_true, isJoining, Bool.not_eq_true', Option.isSome_eq_false_iff,
        Option.isNone_iff_eq_none] at hfree
      exact hfree.1.2
    · exact h
  | failRequest => exact ⟨h.refuses, nofun, nofun⟩
  | failJoin =>
    refine ⟨?_, ?_, h.paused⟩
    · intro hdraining
      exact ⟨(h.refuses hdraining).1, (h.refuses hdraining).2.1, nofun⟩
    · intro r hr hdrains
      exact ⟨(h.drains r hr hdrains).1, rfl⟩
  | failDrain => exact ⟨h.refuses, h.drains, h.paused⟩

end Processes

namespace NodeLifecycle

def patient (s : NodeLifecycle) : LifecycleAction → Bool
  | .requestDrain => s.started
  | _ => true

theorem refusing_step {s : NodeLifecycle} {a : LifecycleAction} (hpatient : s.patient a = true)
    (h : ∀ p ∈ s.process, Refusing s.ground p) : ∀ p ∈ (s.step a).process, Refusing (s.step a).ground p := by
  obtain ⟨g, process⟩ := s
  cases process with
  | none =>
    cases a with
    | boot config seeds =>
      rintro _ ⟨⟩
      exact ⟨nofun, nofun, nofun⟩
    | _ => exact h
  | some p =>
    by_cases ha : a = .crash
    · rw [ha]
      intro p hp
      cases hp
    · have hdrain : a = .requestDrain → p.startup = .finished := by
        rintro rfl
        simpa [patient, started] using hpatient
      have hact := (h p rfl).act a hdrain
      rw [step_some ha]
      intro p' hp'
      cases hp'
      exact hact

end NodeLifecycle

theorem draining_node_refuses {config : NodeConfig} {file : Option NodeState} {actions : List LifecycleAction}
    (hpatient : Along step (patient · ·) (.fresh config file) actions)
    {p : NodeProcess} (hprocess : ((fresh config file).run actions).process = some p)
    (hdraining : ((fresh config file).run actions).ground.draining = true)
    {operation : StoreOperation} (hoperation : operation ≠ .read) :
    ((fresh config file).run actions).ground.gate.admitOperation operation =
      .error (.runtimeError s!"{operation.name}: node is draining or idle") := by
  have hrefusing := hpatient.invariant (I := fun s => ∀ p ∈ s.process, Refusing s.ground p)
    (fun _ _ hallowed h => refusing_step hallowed h) (by intro p hp; cases hp)
  exact Gate.refuses ((hrefusing p hprocess).refuses hdraining).1 hoperation

namespace Sample

def drainedAtRestart : List LifecycleAction :=
  birth lone ["0a"] ++ [.crash, .boot lone [], .startup true [], .startup true []] ++
    drainAcknowledged ++ [.startup true [], .startup true []]

theorem drained_at_restart_accepts : (newborn.run drainedAtRestart).ground.draining = true ∧
      (newborn.run drainedAtRestart).ground.file.map NodeState.phase = some .draining ∧
      (newborn.run drainedAtRestart).ground.gate.admitOperation .write = .ok () := by
  decide +kernel

def drainedAfterStart : List LifecycleAction :=
  birth lone ["0a"] ++ [.startup true [], .startup true []] ++ drainAcknowledged

theorem drained_after_start_refuses : (newborn.run drainedAfterStart).ground.draining = true ∧
      (newborn.run drainedAfterStart).ground.gate.admitOperation .replicationWrite =
        .error (.runtimeError "replication.write: node is draining or idle") := by
  have hdraining : (newborn.run drainedAfterStart).ground.draining = true := by decide +kernel
  have hprocess : (newborn.run drainedAfterStart).process.isSome = true := by decide +kernel
  exact ⟨hdraining, draining_node_refuses (by decide +kernel : Along step (patient · ·) newborn drainedAfterStart)
    (Option.some_get hprocess).symm hdraining (by decide)⟩

end Sample

end Tourillon
