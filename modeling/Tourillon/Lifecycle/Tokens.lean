import Tourillon.Lifecycle.Epochs

namespace Tourillon

open Machine MembershipRequest NodeLifecycle Startup DrainStage

def offRing (phase : MemberPhase) : Bool := phase ∈ [MemberPhase.idle, .failed]

def tokensOf (f : Option NodeState) : Option (List String) := f.map NodeState.tokens

section Stages

variable {g : Ground} {x : NodeState}

theorem tokens_transitionTo (state : NodeState) (phase : MemberPhase) (seeds : Option (List String))
    (hx : g.file = some x) : tokensOf (g.transitionTo state phase none seeds).file = some x.tokens := by
  simp [tokensOf, Ground.transitionTo, Ground.edited, hx]

theorem JoinStage.tokens (ok : Bool) (stage : JoinStage) (hx : g.file = some x) :
    tokensOf (stage.step g ok).1.file = some x.tokens := by
  have hsame : tokensOf g.file = some x.tokens := by rw [hx]; rfl
  cases stage with
  | entering state =>
    rw [JoinStage.step]
    split <;> exact hsame
  | syncing state => exact hsame
  | announcing state => exact hsame
  | filling state => exact hsame
  | completing state => exact tokens_transitionTo state .ready none hx
  | failing state => exact tokens_transitionTo state .failed none hx
  | resuming ready => exact hsame
  | opening ready =>
    rw [JoinStage.step]
    split <;> exact hsame
  | closing failed => exact hsame

theorem DrainStage.tokens (ok : Bool) (stage : DrainStage) (hx : g.file = some x) :
    tokensOf (stage.step g ok).1.file = some x.tokens := by
  have hsame : tokensOf g.file = some x.tokens := by rw [hx]; rfl
  cases stage with
  | settling state =>
    rw [step]
    split <;> exact hsame
  | handing state =>
    rw [step]
    split <;> exact hsame
  | idling state => exact tokens_transitionTo state .idle none hx
  | closing idle => exact hsame

theorem MembershipRequest.tokens (tokens : List String) (topology : Topology) (request : MembershipRequest)
    (hrequest : ∀ state seeds, request ≠ .joinWriting state seeds) (hx : g.file = some x) :
    tokensOf (request.step g tokens topology).1.file = some x.tokens := by
  have hsame : tokensOf g.file = some x.tokens := by rw [hx]; rfl
  cases request with
  | joinLoading seeds =>
    rw [step, hx]
    dsimp only
    split <;> exact hsame
  | joinWriting state seeds => exact absurd rfl (hrequest state seeds)
  | joinWritten joining => exact hsame
  | drainLoading =>
    rw [step, hx]
    dsimp only
    split <;> exact hsame
  | drainChecking state =>
    rw [step]
    split
    · exact hsame
    · split <;> exact hsame
  | drainWriting state seeds => exact tokens_transitionTo state .draining (some seeds) hx
  | drainPausing state => exact hsame
  | drainPublishing state => exact hsame

theorem Startup.tokens (ok locked : Bool) (tokens : List String) (startup : Startup)
    (hstartup : ∀ state seeds, startup ≠ .idle state seeds) (hx : g.file = some x) :
    tokensOf (startup.step g ok locked tokens).1.file = some x.tokens := by
  have hsame : tokensOf g.file = some x.tokens := by rw [hx]; rfl
  cases startup with
  | loading seeds =>
    rw [step, hx]
    exact hsame
  | binding state seeds => exact hsame
  | idle state seeds => exact absurd rfl (hstartup state seeds)
  | reseeding state seeds => simp [step, tokensOf, Ground.reseeded, hx]
  | locking state =>
    rw [step]
    split <;> exact hsame
  | joining stage =>
    have hstage := JoinStage.tokens ok stage hx
    rw [step]
    rcases hstep : stage.step g ok with ⟨g', _ | stage'⟩
    · rw [hstep] at hstage
      exact hstage
    · rw [hstep] at hstage
      exact hstage
  | syncing ready =>
    rw [step]
    split <;> exact hsame
  | resuming ready => exact hsame
  | listening => exact hsame
  | pausing =>
    rw [step, hx]
    exact hsame
  | resyncing state =>
    rw [step]
    split <;> exact hsame
  | handing state => exact hsame
  | finished => exact hsame

end Stages

theorem any_ground : GroundInvariant fun _ => True where
  gate _ _ _ _ _ _ := trivial
  publish _ _ _ _ := trivial
  write _ _ _ _ _ _ _ _ _ _ := trivial
  create _ _ _ _ := trivial
  reseed _ _ _ _ := trivial

structure Departed (p : NodeProcess) : Prop where
  writing : ∀ c seeds, p.request = some (.joinWriting c seeds) → offRing c.phase = true
  idle : ∀ c seeds, p.startup = .idle c seeds → offRing c.phase = true

section Processes

variable {g : Ground} {p : NodeProcess} {c : NodeState} {seeds tokens : List String}

theorem Sole.startup_held (h : Sole g p) : ∀ c ∈ p.startup.state, g.file = some c := by
  cases h with
  | startup hheld => exact hheld
  | request _ => exact nofun
  | join _ => exact nofun
  | drain _ => exact nofun

theorem Sole.request_held (h : Sole g p) {r : MembershipRequest} (hr : p.request = some r) :
    ∀ c ∈ r.state, g.file = some c := by
  cases h with
  | startup _ => cases hr
  | request hheld =>
    cases hr
    exact hheld
  | join _ => cases hr
  | drain _ => cases hr

theorem act_tokens (hsole : Sole g p) (hdeparted : Departed p) (a : LifecycleAction) {x : NodeState}
    (hx : g.file = some x) (hring : offRing x.phase = false) : tokensOf (act g p a).1.file = some x.tokens := by
  have hsame : tokensOf g.file = some x.tokens := by rw [hx]; rfl
  have hcaptured {c : NodeState} (hc : g.file = some c) (hoff : offRing c.phase = true) : False := by
    cases hx.symm.trans hc
    rw [hring] at hoff
    cases hoff
  cases a with
  | startup ok tokens =>
    have hidle (state : NodeState) (seeds : List String) : p.startup ≠ .idle state seeds := by
      intro hstartup
      refine hcaptured (hsole.startup_held state ?_) (hdeparted.idle state seeds hstartup)
      rw [hstartup]
      rfl
    exact Startup.tokens ok p.locked tokens p.startup hidle hx
  | request tokens topology =>
    unfold act
    dsimp only
    cases hrequest : p.request with
    | none => exact hsame
    | some request =>
      refine MembershipRequest.tokens tokens topology request ?_ hx
      rintro state seeds rfl
      exact hcaptured (hsole.request_held hrequest state rfl) (hdeparted.writing state seeds hrequest)
  | joinTask ok =>
    unfold act
    dsimp only
    cases p.joinTask with
    | none => exact hsame
    | some stage => exact JoinStage.tokens ok stage hx
  | drainTask ok =>
    unfold act
    dsimp only
    cases p.drainTask with
    | none => exact hsame
    | some stage => exact tokens ok stage hx
  | orphan i ok =>
    unfold act
    dsimp only
    cases p.orphans[i]? with
    | none => exact hsame
    | some stage =>
      have hstage := tokens ok stage hx
      dsimp only
      rcases hstep : stage.step g ok with ⟨g', _ | next⟩
      · rw [hstep] at hstage
        exact hstage
      · rw [hstep] at hstage
        exact hstage
  | requestJoin seeds =>
    unfold act
    dsimp only
    split <;> exact hsame
  | requestDrain =>
    unfold act
    dsimp only
    split <;> exact hsame
  | _ => exact hsame

theorem Startup.idle_of_binding {state : NodeState} {seeds' : List String}
    (h : afterBinding state seeds = .idle c seeds') : offRing c.phase = true := by
  unfold afterBinding at h
  cases hphase : state.phase with
  | idle =>
    rw [hphase] at h
    cases h
    rw [hphase]
    rfl
  | joining =>
    rw [hphase] at h
    dsimp only at h
    split at h <;> cases h
  | ready =>
    rw [hphase] at h
    dsimp only at h
    split at h <;> cases h
  | draining =>
    rw [hphase] at h
    cases h
  | failed =>
    rw [hphase] at h
    cases h
  | paused =>
    rw [hphase] at h
    cases h

theorem Startup.idle_of_step {ok locked : Bool} {startup : Startup}
    (h : (startup.step g ok locked tokens).2.1 = .idle c seeds) : offRing c.phase = true := by
  cases startup with
  | binding state seeds' =>
    cases ok with
    | true => exact idle_of_binding h
    | false => cases h
  | loading seeds' =>
    rw [step] at h
    split at h <;> cases h
  | idle state seeds' =>
    rw [step] at h
    split at h <;> cases h
  | reseeding state seeds' =>
    rw [step] at h
    split at h <;> cases h
  | locking state =>
    rw [step] at h
    split at h
    · cases h
    · dsimp only at h
      split at h <;> cases h
  | joining stage =>
    rw [step] at h
    split at h <;> cases h
  | syncing ready =>
    rw [step] at h
    split at h <;> cases h
  | resuming ready => cases h
  | listening => cases h
  | pausing =>
    rw [step] at h
    split at h <;> cases h
  | resyncing state =>
    rw [step] at h
    split at h <;> cases h
  | handing state => cases h
  | finished => cases h

theorem MembershipRequest.writing_of_step {topology : Topology} {request : MembershipRequest}
    (h : (request.step g tokens topology).2.1 = some (.joinWriting c seeds)) :
    (∃ seeds', request = .joinLoading seeds') ∧ g.file = some c ∧ c.phase ≠ .draining := by
  cases request with
  | joinLoading seeds' =>
    refine ⟨⟨seeds', rfl⟩, ?_⟩
    rw [step] at h
    cases hfile : g.file with
    | none =>
      rw [hfile] at h
      cases h
    | some state =>
      rw [hfile] at h
      dsimp only at h
      split at h
      · cases h
      · rename_i haccepted
        cases h
        exact ⟨rfl, fun hphase => haccepted (.inl hphase)⟩
  | joinWriting state seeds' => cases h
  | joinWritten joining => cases h
  | drainLoading =>
    rw [step] at h
    split at h
    · cases h
    · split at h <;> cases h
  | drainChecking state =>
    rw [step] at h
    split at h
    · cases h
    · split at h <;> cases h
  | drainWriting state seeds' => cases h
  | drainPausing state => cases h
  | drainPublishing state => cases h

def joinsOnRing (g : Ground) (p : NodeProcess) : LifecycleAction → Bool
  | .request _ _ =>
    match p.request with
    | some (.joinLoading _) => (g.file.map NodeState.phase).any fun phase =>
      phase ∈ [MemberPhase.joining, .ready, .paused]
    | _ => false
  | _ => false

theorem Departed.spawn (h : Departed p) (spawned : Option Spawn) : Departed (p.spawn spawned) := by
  cases spawned with
  | none => exact h
  | some spawned =>
    cases spawned with
    | join state => exact ⟨h.writing, h.idle⟩
    | drain state => exact ⟨h.writing, h.idle⟩

theorem offRing_of_joining {topology : Topology} (hrequest : p.request = some (.joinLoading seeds))
    (hfile : g.file = some c) (hjoin : joinsOnRing g p (.request tokens topology) = false)
    (hphase : c.phase ≠ .draining) : offRing c.phase = true := by
  rw [joinsOnRing, hrequest, hfile] at hjoin
  cases hc : c.phase with
  | idle => rfl
  | failed => rfl
  | draining => exact absurd hc hphase
  | joining => simp [hc] at hjoin
  | ready => simp [hc] at hjoin
  | paused => simp [hc] at hjoin

theorem Departed.act (h : Departed p) (a : LifecycleAction) (hjoin : joinsOnRing g p a = false) :
    Departed (NodeLifecycle.act g p a).2 := by
  cases a with
  | startup ok tokens =>
    have hnext : Departed { p with startup := (p.startup.step g ok p.locked tokens).2.1 } :=
      ⟨h.writing, fun _ _ hidle => idle_of_step hidle⟩
    exact hnext.spawn _
  | failStartup => exact ⟨h.writing, nofun⟩
  | request tokens topology =>
    unfold NodeLifecycle.act
    dsimp only
    cases hrequest : p.request with
    | none => exact h
    | some request =>
      have hnext : Departed { p with request := (request.step g tokens topology).2.1 } := by
        refine ⟨?_, h.idle⟩
        intro c seeds hwriting
        obtain ⟨⟨seeds', rfl⟩, hfile, hphase⟩ := writing_of_step hwriting
        exact offRing_of_joining hrequest hfile hjoin hphase
      exact hnext.spawn _
  | failRequest => exact ⟨nofun, h.idle⟩
  | requestJoin seeds =>
    unfold NodeLifecycle.act
    dsimp only
    split
    · exact ⟨nofun, h.idle⟩
    · exact h
  | requestDrain =>
    unfold NodeLifecycle.act
    dsimp only
    split
    · exact ⟨nofun, h.idle⟩
    · exact h
  | joinTask ok =>
    unfold NodeLifecycle.act
    dsimp only
    cases p.joinTask with
    | none => exact h
    | some stage => exact ⟨h.writing, h.idle⟩
  | drainTask ok =>
    unfold NodeLifecycle.act
    dsimp only
    cases p.drainTask with
    | none => exact h
    | some stage => exact ⟨h.writing, h.idle⟩
  | orphan i ok =>
    unfold NodeLifecycle.act
    dsimp only
    cases p.orphans[i]? with
    | none => exact h
    | some stage =>
      dsimp only
      rcases stage.step g ok with ⟨g', _ | next⟩
      · exact ⟨h.writing, h.idle⟩
      · exact ⟨h.writing, h.idle⟩
  | _ => exact ⟨h.writing, h.idle⟩

end Processes

namespace NodeLifecycle

variable {s : NodeLifecycle}

def rested (s : NodeLifecycle) (a : LifecycleAction) : Bool :=
  match s.process with
  | none => true
  | some p => !p.unready a && !joinsOnRing s.ground p a

def Anchored (s : NodeLifecycle) : Prop := ∀ p ∈ s.process, Orderly (fun _ => True) s.ground p ∧ Departed p

theorem anchored_step (s : NodeLifecycle) (a : LifecycleAction) (hrested : rested s a = true)
    (h : Anchored s) : Anchored (s.step a) := by
  obtain ⟨g, process⟩ := s
  cases process with
  | none =>
    cases a with
    | boot config seeds =>
      rintro _ ⟨⟩
      refine ⟨⟨trivial, .startup ?_⟩, nofun, nofun⟩
      intro c hc
      cases hc
    | _ => exact h
  | some p =>
    by_cases ha : a = .crash
    · rw [ha]
      intro p hp
      cases hp
    · obtain ⟨hready, hjoin⟩ := Bool.and_eq_true_iff.mp hrested
      obtain ⟨horderly, hdeparted⟩ := h p rfl
      have hact := horderly.act any_ground a (by simpa using hready)
      rw [step_some ha]
      rintro _ ⟨⟩
      exact ⟨hact.orderly, hdeparted.act a (by simpa using hjoin)⟩

theorem Anchored.tokens_step (h : Anchored s) (a : LifecycleAction) {x : NodeState}
    (hx : s.ground.file = some x) (hring : offRing x.phase = false) :
    tokensOf (s.step a).ground.file = tokensOf s.ground.file := by
  obtain ⟨g, process⟩ := s
  cases process with
  | none => cases a <;> rfl
  | some p =>
    by_cases ha : a = .crash
    · rw [ha]
      rfl
    · obtain ⟨horderly, hdeparted⟩ := h p rfl
      rw [step_some ha, hx]
      exact act_tokens horderly.sole hdeparted a hx hring

def onRing (s : NodeLifecycle) : Bool := s.ground.file.any fun state => !offRing state.phase

theorem file_of_onRing (h : s.onRing = true) : ∃ x, s.ground.file = some x ∧ offRing x.phase = false := by
  obtain ⟨x, hx, hphase⟩ := (Option.any_eq_true _ _).mp h
  exact ⟨x, hx, by simpa using hphase⟩

theorem Anchored.tokens_run {actions : List LifecycleAction} (h : Anchored s)
    (hrested : Along step (rested · ·) s actions)
    (hring : ∀ early, early <+: actions → (s.run early).onRing = true) :
    tokensOf (s.run actions).ground.file = tokensOf s.ground.file := by
  induction actions generalizing s with
  | nil => rfl
  | cons a actions ih =>
    obtain ⟨hallowed, hrest⟩ := hrested
    obtain ⟨x, hx, hphase⟩ := file_of_onRing (hring [] List.nil_prefix)
    have hlater : tokensOf ((s.step a).run actions).ground.file = tokensOf (s.step a).ground.file := by
      refine ih (anchored_step s a hallowed h) hrest ?_
      intro early hearly
      exact hring (a :: early) (List.cons_prefix_cons.mpr ⟨rfl, hearly⟩)
    exact hlater.trans (h.tokens_step a hx hphase)

end NodeLifecycle

theorem tokens_constant_on_ring {config : NodeConfig} {file : Option NodeState} {actions : List LifecycleAction}
    (hrested : Along step (rested · ·) (.fresh config file) actions) :
    ∀ before during after, actions = before ++ during ++ after → (∀ early, early <+: during →
        ((fresh config file).run (before ++ early)).onRing = true) →
      tokensOf ((fresh config file).run (before ++ during)).ground.file =
        tokensOf ((fresh config file).run before).ground.file := by
  intro before during after hactions hring
  rw [hactions] at hrested
  obtain ⟨hfirst, _⟩ := along_append.mp hrested
  obtain ⟨hbefore, hduring⟩ := along_append.mp hfirst
  have hfresh : NodeLifecycle.Anchored (.fresh config file) := by
    intro p hp
    cases hp
  have hanchored : NodeLifecycle.Anchored ((fresh config file).run before) :=
    hbefore.invariant anchored_step hfresh
  rw [run_append]
  refine hanchored.tokens_run hduring ?_
  intro early hearly
  rw [← run_append]
  exact hring early hearly

namespace Sample

def rejoined : List LifecycleAction :=
  [.startup true [], .startup true [], .requestJoin ["s:1"], .request [] blank, .request ["0b"] blank]

theorem ready_node_rejoins_with_new_tokens : (newborn.run (birth lone ["0a"] ++ rejoined.take 4)).ground.file =
      some ⟨"n", .ready, ["0a"], [], 1⟩ ∧ (newborn.run (birth lone ["0a"] ++ rejoined)).ground.file =
      some ⟨"n", .joining, ["0b"], ["s:1"], 2⟩ := by
  decide +kernel

def retired : List LifecycleAction :=
  [.startup true [], .startup true []] ++ drainAcknowledged ++
    [.crash, .boot lone [], .startup true [], .startup true [], .startup true []]

theorem drained_node_keeps_its_tokens :
    tokensOf (newborn.run (birth lone ["0a"] ++ retired)).ground.file = some ["0a"] ∧
      (newborn.run (birth lone ["0a"] ++ retired)).ground.file.map NodeState.phase = some .draining := by
  have hring : ∀ early ∈ retired.inits, (newborn.run (birth lone ["0a"] ++ early)).onRing = true := by
    decide +kernel
  have htokens := tokens_constant_on_ring
    (by decide +kernel :
      Along step (rested · ·) newborn (birth lone ["0a"] ++ retired))
    _ retired [] (List.append_nil _).symm
    (fun early hearly => hring early (List.mem_inits _ _ |>.mpr hearly))
  exact ⟨htokens.trans (by decide +kernel), by decide +kernel⟩

end Sample

end Tourillon
