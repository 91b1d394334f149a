import Tourillon.Lifecycle.Machine

namespace Tourillon

open MembershipRequest List

def Rises (f f' : Option NodeState) : Prop :=
  ∀ x ∈ f, ∃ y ∈ f', x.epoch ≤ y.epoch ∧
    (x.phase ≠ y.phase ∨ x.tokens ≠ y.tokens → x.epoch < y.epoch)

theorem Rises.refl (f : Option NodeState) : Rises f f :=
  fun x hx => ⟨x, hx, le_rfl, fun h => h.elim (fun h => absurd rfl h) fun h => absurd rfl h⟩

theorem Rises.trans {f f' f'' : Option NodeState} (h : Rises f f') (h' : Rises f' f'') : Rises f f'' := by
  intro x hx
  obtain ⟨y, hy, hle, hlt⟩ := h x hx
  obtain ⟨z, hz, hle', hlt'⟩ := h' y hy
  refine ⟨z, hz, hle.trans hle', ?_⟩
  intro hchanged
  by_cases hsame : x.phase = y.phase ∧ x.tokens = y.tokens
  · rw [hsame.1, hsame.2] at hchanged
    exact lt_of_le_of_lt hle (hlt' hchanged)
  · exact lt_of_lt_of_le (hlt (not_and_or.mp hsame)) hle'

structure Coherent (address : String) (g : Ground) : Prop where
  newest : ∀ m ∈ g.published, ∃ f, g.file = some f ∧ (m.epoch < f.epoch ∨ m = f.member address)
  unique : ∀ m ∈ g.published, ∀ m' ∈ g.published, m.epoch = m'.epoch → m = m'

structure GroundInvariant (K : Ground → Prop) : Prop where
  gate : ∀ g g', g'.config = g.config → g'.file = g.file → g'.published = g.published → K g → K g'
  publish : ∀ g c, g.file = some c → K g → K (g.publishState c)
  write : ∀ g g' c f, g'.config = g.config → g'.published = g.published → g.file = some c →
    g'.file = some f → f.epoch = c.epoch + 1 → K g → K g'
  create : ∀ g f, g.file = none → K g → K { g with file := some f }
  reseed : ∀ g c seeds, K g → K { g with file := some (g.reseeded c seeds) }

structure Advanced (K : Ground → Prop) (g g' : Ground) (held : Option NodeState) : Prop where
  kept : K g'
  rises : Rises g.file g'.file
  holds : ∀ c ∈ held, g'.file = some c

section Ground

variable {K : Ground → Prop} {g : Ground} {c : NodeState} {held : Option NodeState}

theorem held_some {f : Option NodeState} (hfile : f = some c) : ∀ c' ∈ some c, f = some c' := by
  rintro _ ⟨⟩
  exact hfile

theorem Advanced.refl (h : K g) (hheld : ∀ c ∈ held, g.file = some c) : Advanced K g g held :=
  ⟨h, Rises.refl _, hheld⟩

variable (hK : GroundInvariant K)

include hK

namespace GroundInvariant

theorem transitionTo (h : K g) (hfile : g.file = some c) (phase : MemberPhase)
    (tokens seeds : Option (List String)) :
    Advanced K g (g.transitionTo c phase tokens seeds) (some (g.edited c phase tokens seeds)) where
  kept := hK.write g _ c _ rfl rfl hfile rfl rfl h
  rises := by
    intro x hx
    cases hfile.symm.trans hx
    exact ⟨_, rfl, Nat.le_succ _, fun _ => Nat.lt_succ_self _⟩
  holds := held_some rfl

theorem regate (h : K g) {g' : Ground} (hconfig : g'.config = g.config)
    (hfile : g'.file = g.file) (hpublished : g'.published = g.published)
    (hheld : ∀ c ∈ held, g.file = some c) : Advanced K g g' held where
  kept := hK.gate g g' hconfig hfile hpublished h
  rises := hfile ▸ Rises.refl _
  holds := hfile ▸ hheld

theorem publishState (h : K g) (hfile : g.file = some c)
    (hheld : ∀ c ∈ held, g.file = some c) : Advanced K g (g.publishState c) held :=
  ⟨hK.publish g c hfile h, Rises.refl _, hheld⟩

theorem createState (h : K g) (hfile : g.file = none) (state : NodeState) :
    Advanced K g { g with file := some state } (some state) where
  kept := hK.create g state hfile h
  rises := by
    rw [hfile]
    exact nofun
  holds := held_some rfl

theorem reseedState (h : K g) (c : NodeState) (seeds : List String) :
    Advanced K g { g with file := some (g.reseeded c seeds) } (some (g.reseeded c seeds)) where
  kept := hK.reseed g c seeds h
  rises := by
    intro x hx
    refine ⟨_, rfl, ?_⟩
    rw [Ground.reseeded, Option.mem_def.mp hx]
    exact ⟨le_rfl, fun hchanged => hchanged.elim (fun hne => absurd rfl hne) fun hne => absurd rfl hne⟩
  holds := held_some rfl

end GroundInvariant

end Ground

section Publication

variable {address : String} {g : Ground} {c : NodeState} {g' : Ground}

section

variable (h : Coherent address g)

include h

theorem Coherent.same (hfile : g'.file = g.file) (hpublished : g'.published = g.published) :
    Coherent address g' where
  newest := by
    rw [hfile, hpublished]
    exact h.newest
  unique := by
    rw [hpublished]
    exact h.unique

theorem Coherent.publishState (haddress : g.config.advertise = address) (hfile : g.file = some c) :
    Coherent address (g.publishState c) where
  newest := by
    intro m hm
    rcases mem_append.mp hm with hm | hm
    · exact h.newest m hm
    · cases mem_singleton.mp hm
      exact ⟨c, hfile, .inr (haddress ▸ rfl)⟩
  unique := by
    have hlatest (m : Member) (hm : m ∈ g.published)
        (hepoch : m.epoch = (c.member g.config.advertise).epoch) :
        m = c.member g.config.advertise := by
      obtain ⟨f, hf, hlt | heq⟩ := h.newest m hm
      · cases hfile.symm.trans hf
        exact absurd hepoch hlt.ne
      · cases hfile.symm.trans hf
        rw [haddress]
        exact heq
    intro m hm m' hm' hepoch
    rcases mem_append.mp hm with hm | hm <;> rcases mem_append.mp hm' with hm' | hm'
    · exact h.unique m hm m' hm' hepoch
    · cases mem_singleton.mp hm'
      exact hlatest m hm hepoch
    · cases mem_singleton.mp hm
      exact (hlatest m' hm' hepoch.symm).symm
    · rw [mem_singleton.mp hm, mem_singleton.mp hm']

theorem Coherent.write (hfile : g.file = some c) {f : NodeState} (hwritten : g'.file = some f)
    (hepoch : f.epoch = c.epoch + 1) (hpublished : g'.published = g.published) : Coherent address g' where
  newest := by
    intro m hm
    rw [hpublished] at hm
    refine ⟨f, hwritten, .inl ?_⟩
    obtain ⟨f', hf', hlt | heq⟩ := h.newest m hm
    · cases hfile.symm.trans hf'
      omega
    · cases hfile.symm.trans hf'
      rw [heq, hepoch]
      exact Nat.lt_succ_self _
  unique := by
    rw [hpublished]
    exact h.unique

theorem Coherent.create (hfile : g.file = none) (state : NodeState) :
    Coherent address { g with file := some state } := by
  refine ⟨?_, h.unique⟩
  intro m hm
  obtain ⟨f, hf, _⟩ := h.newest m hm
  exact absurd (hfile.symm.trans hf) nofun

theorem Coherent.reseed (c : NodeState) (seeds : List String) :
    Coherent address { g with file := some (g.reseeded c seeds) } := by
  refine ⟨?_, h.unique⟩
  intro m hm
  obtain ⟨f, hf, hm⟩ := h.newest m hm
  refine ⟨_, rfl, ?_⟩
  rw [Ground.reseeded, hf]
  exact hm

end

theorem coherent_invariant (address : String) :
    GroundInvariant fun g => Coherent address g ∧ g.config.advertise = address where
  gate _ _ hconfig hfile hpublished h := ⟨h.1.same hfile hpublished, hconfig ▸ h.2⟩
  publish _ _ hfile h := ⟨h.1.publishState h.2 hfile, h.2⟩
  write _ _ _ _ hconfig hpublished hfile hwritten hepoch h :=
    ⟨h.1.write hfile hwritten hepoch hpublished, hconfig ▸ h.2⟩
  create _ f hfile h := ⟨h.1.create hfile f, h.2⟩
  reseed _ c seeds h := ⟨h.1.reseed c seeds, h.2⟩

end Publication

def JoinStage.state : JoinStage → NodeState
  | entering state => state
  | syncing state => state
  | announcing state => state
  | filling state => state
  | completing state => state
  | failing state => state
  | resuming ready => ready
  | opening ready => ready
  | closing failed => failed

def DrainStage.state : DrainStage → NodeState
  | settling state => state
  | handing state => state
  | idling state => state
  | closing idle => idle

def Spawn.state : Spawn → NodeState
  | join state => state
  | drain state => state

def MembershipRequest.state : MembershipRequest → Option NodeState
  | joinLoading _ => none
  | joinWriting state _ => some state
  | joinWritten joining => some joining
  | drainLoading => none
  | drainChecking state => some state
  | drainWriting state _ => some state
  | drainPausing state => some state
  | drainPublishing state => some state

def Startup.state : Startup → Option NodeState
  | loading _ => none
  | binding state _ => some state
  | idle state _ => some state
  | reseeding state _ => some state
  | locking state => some state
  | joining stage => some stage.state
  | syncing ready => some ready
  | resuming ready => some ready
  | listening => none
  | pausing => none
  | resyncing state => some state
  | handing state => some state
  | finished => none

section Stages

variable {K : Ground → Prop} {g : Ground} {c : NodeState} {tokens : List String} {spawned : Spawn}

theorem JoinStage.advanced (hK : GroundInvariant K) (h : K g) (ok : Bool)
    (stage : JoinStage) (hfile : g.file = some stage.state) :
    Advanced K g (stage.step g ok).1 ((stage.step g ok).2.map JoinStage.state) := by
  cases stage with
  | entering state =>
    rw [JoinStage.step]
    split
    · exact hK.publishState h hfile (held_some hfile)
    · exact Advanced.refl h nofun
  | syncing state =>
    refine Advanced.refl h ?_
    cases ok with
    | true => exact held_some hfile
    | false => exact held_some hfile
  | announcing state => exact hK.publishState h hfile (held_some hfile)
  | filling state =>
    refine Advanced.refl h ?_
    cases ok with
    | true => exact held_some hfile
    | false => exact held_some hfile
  | completing state => exact hK.transitionTo h hfile .ready none none
  | failing state => exact hK.transitionTo h hfile .failed none none
  | resuming ready => exact hK.regate h rfl rfl rfl (held_some hfile)
  | opening ready =>
    rw [JoinStage.step]
    split
    · exact hK.publishState h hfile nofun
    · exact Advanced.refl h nofun
  | closing failed => exact hK.publishState h hfile nofun

theorem DrainStage.advanced (hK : GroundInvariant K) (h : K g) (ok : Bool)
    (stage : DrainStage) (hfile : g.file = some stage.state) :
    Advanced K g (stage.step g ok).1 ((stage.step g ok).2.map DrainStage.state) := by
  cases stage with
  | settling state =>
    rw [DrainStage.step]
    split
    · exact hK.regate h rfl rfl rfl (held_some hfile)
    · exact hK.regate h rfl rfl rfl nofun
  | handing state =>
    rw [DrainStage.step]
    split
    · exact hK.regate h rfl rfl rfl (held_some hfile)
    · exact Advanced.refl h nofun
  | idling state => exact hK.transitionTo h hfile .idle none none
  | closing idle => exact hK.publishState h hfile nofun

def heldBy (request : Option MembershipRequest) (spawned : Option Spawn) : Option NodeState :=
  (request.bind state).or (spawned.map Spawn.state)

theorem MembershipRequest.advanced (hK : GroundInvariant K) (h : K g)
    (tokens : List String) (topology : Topology) (request : MembershipRequest)
    (hheld : ∀ c ∈ request.state, g.file = some c) : Advanced K g (request.step g tokens topology).1
      (heldBy (request.step g tokens topology).2.1 (request.step g tokens topology).2.2) := by
  cases request with
  | joinLoading seeds =>
    rw [step]
    cases hfile : g.file with
    | none => exact Advanced.refl h nofun
    | some state =>
      dsimp only
      split
      · exact Advanced.refl h nofun
      · exact Advanced.refl h (held_some hfile)
  | joinWriting state seeds => exact hK.transitionTo h (hheld state rfl) .joining (some tokens) (some seeds)
  | joinWritten joining => exact Advanced.refl h (held_some (hheld joining rfl))
  | drainLoading =>
    rw [step]
    cases hfile : g.file with
    | none => exact Advanced.refl h nofun
    | some state =>
      dsimp only
      split
      · exact Advanced.refl h (held_some hfile)
      · exact Advanced.refl h nofun
  | drainChecking state =>
    rw [step]
    split
    · exact Advanced.refl h nofun
    · split
      · exact Advanced.refl h (held_some (hheld state rfl))
      · exact Advanced.refl h (held_some (hheld state rfl))
  | drainWriting state seeds => exact hK.transitionTo h (hheld state rfl) .draining none (some seeds)
  | drainPausing state => exact hK.regate h rfl rfl rfl (held_some (hheld state rfl))
  | drainPublishing state =>
    have hpublish := hK.publishState h (hheld state rfl) (held_some (hheld state rfl))
    exact ⟨hK.gate (g.publishState state) _ rfl rfl rfl hpublish.kept, hpublish.rises, hpublish.holds⟩

namespace Startup

theorem afterBinding_state (state : NodeState) (seeds : List String) :
    ∀ c ∈ (afterBinding state seeds).state, c = state := by
  unfold afterBinding
  cases state.phase with
  | idle => exact fun c hc => (Option.some.inj hc).symm
  | joining =>
    dsimp only
    split <;> exact fun c hc => (Option.some.inj hc).symm
  | ready =>
    dsimp only
    split <;> exact fun c hc => (Option.some.inj hc).symm
  | draining => exact nofun
  | failed => exact nofun
  | paused => exact nofun

theorem advanced (hK : GroundInvariant K) (h : K g)
    (ok locked : Bool) (tokens : List String) (startup : Startup) (hheld : ∀ c ∈ startup.state, g.file = some c) :
    Advanced K g (startup.step g ok locked tokens).1 ((startup.step g ok locked tokens).2.1.state.or
        ((startup.step g ok locked tokens).2.2.map Spawn.state)) := by
  cases startup with
  | loading seeds =>
    rw [step]
    cases hfile : g.file with
    | none => exact hK.createState h hfile _
    | some state => exact Advanced.refl h (held_some hfile)
  | binding state seeds =>
    refine Advanced.refl h ?_
    cases ok with
    | false => exact nofun
    | true =>
      intro c hc
      rw [step, Option.map_none, Option.or_none] at hc
      rw [afterBinding_state state seeds c hc]
      exact hheld state rfl
  | idle state seeds =>
    rw [step]
    split
    · exact Advanced.refl h nofun
    · exact hK.transitionTo h (hheld state rfl) .ready (some tokens) none
  | reseeding state seeds =>
    have hreseed := hK.reseedState h state seeds
    rw [step]
    split
    · exact hreseed
    · exact hreseed
  | locking state =>
    rw [step]
    split
    · exact Advanced.refl h (held_some (hheld state rfl))
    · split
      · exact Advanced.refl h (held_some (hheld state rfl))
      · exact Advanced.refl h nofun
  | joining stage =>
    have hstage := JoinStage.advanced hK h ok stage (hheld _ rfl)
    rw [step]
    rcases hstep : stage.step g ok with ⟨g', _ | stage'⟩
    · rw [hstep] at hstage
      exact hstage
    · rw [hstep] at hstage
      exact hstage
  | syncing ready =>
    rw [step]
    split
    · exact hK.publishState h (hheld ready rfl) (held_some (hheld ready rfl))
    · exact Advanced.refl h nofun
  | resuming ready => exact hK.regate h rfl rfl rfl nofun
  | listening => exact Advanced.refl h nofun
  | pausing =>
    rw [step]
    cases hfile : g.file with
    | none => exact hK.regate h rfl rfl rfl nofun
    | some state => exact hK.regate h rfl rfl rfl (held_some hfile)
  | resyncing state =>
    rw [step]
    split
    · exact hK.publishState h (hheld state rfl) (held_some (hheld state rfl))
    · exact Advanced.refl h nofun
  | handing state =>
    refine Advanced.refl h ?_
    cases ok with
    | false => exact nofun
    | true => exact held_some (hheld state rfl)
  | finished => exact Advanced.refl h nofun

theorem of_spawn {ok locked : Bool} {startup : Startup} (h : (startup.step g ok locked tokens).2.2 = some spawned) :
    (startup.step g ok locked tokens).2.1 = .finished ∧ ∃ state, spawned = .drain state := by
  cases startup with
  | handing state =>
    rw [step] at h
    split at h
    · exact ⟨rfl, state, (Option.some.inj h).symm⟩
    · cases h
  | loading seeds =>
    rw [step] at h
    split at h <;> cases h
  | binding state seeds => cases h
  | idle state seeds =>
    rw [step] at h
    split at h <;> cases h
  | reseeding state seeds => cases h
  | locking state =>
    rw [step] at h
    split at h <;> cases h
  | joining stage =>
    rw [step] at h
    split at h <;> cases h
  | syncing ready =>
    rw [step] at h
    split at h <;> cases h
  | resuming ready => cases h
  | listening => cases h
  | pausing =>
    rw [step] at h
    split at h <;> cases h
  | resyncing state =>
    rw [step] at h
    split at h <;> cases h
  | finished => cases h

end Startup

theorem MembershipRequest.none_of_spawn {topology : Topology} {request : MembershipRequest}
    (h : (request.step g tokens topology).2.2 = some spawned) : (request.step g tokens topology).2.1 = none := by
  cases request with
  | joinWritten joining => rfl
  | drainPublishing state => rfl
  | joinLoading seeds =>
    rw [step] at h
    split at h
    · cases h
    · dsimp only at h
      split at h <;> cases h
  | joinWriting state seeds => cases h
  | drainLoading =>
    rw [step] at h
    split at h
    · cases h
    · split at h <;> cases h
  | drainChecking state =>
    rw [step] at h
    split at h
    · cases h
    · split at h <;> cases h
  | drainWriting state seeds => cases h
  | drainPausing state => cases h

end Stages

end Tourillon
