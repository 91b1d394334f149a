import Tourillon.Library.Machine
import Tourillon.Lifecycle.Stages

namespace Tourillon

open Machine NodeLifecycle NodeProcess Rises

namespace NodeLifecycle

def started (s : NodeLifecycle) : Bool :=
  match s.process with
  | none => true
  | some p => p.startup = .finished

end NodeLifecycle

inductive Sole (g : Ground) : NodeProcess → Prop where
  | startup {startup : Startup} (h : ∀ c ∈ startup.state, g.file = some c) :
    Sole g ⟨startup, none, none, none, []⟩
  | request {request : MembershipRequest} (h : ∀ c ∈ request.state, g.file = some c) :
    Sole g ⟨.finished, some request, none, none, []⟩
  | join {stage : JoinStage} (h : g.file = some stage.state) :
    Sole g ⟨.finished, none, some stage, none, []⟩
  | drain {stage : DrainStage} (h : g.file = some stage.state) :
    Sole g ⟨.finished, none, none, some stage, []⟩

structure Orderly (K : Ground → Prop) (g : Ground) (p : NodeProcess) : Prop where
  kept : K g
  sole : Sole g p

structure Proceeds (K : Ground → Prop) (g : Ground) (next : Ground × NodeProcess) : Prop where
  orderly : Orderly K next.1 next.2
  rises : Rises g.file next.1.file

section Processes

variable {K : Ground → Prop} {g g' : Ground} {p : NodeProcess} {held : Option NodeState}

theorem Sole.idle : Sole g ⟨.finished, none, none, none, []⟩ := .startup nofun

theorem Orderly.stay (h : Orderly K g p) : Proceeds K g (g, p) := ⟨h, refl _⟩

theorem Advanced.next (h : Advanced K g g' held) (hsole : Sole g' p) : Proceeds K g (g', p) :=
  ⟨⟨h.kept, hsole⟩, h.rises⟩

theorem Sole.spawn {spawned : Spawn} (h : g.file = some spawned.state) :
    Sole g ((⟨.finished, none, none, none, []⟩ : NodeProcess).spawn (some spawned)) := by
  cases spawned with
  | join state => exact .join h
  | drain state => exact .drain h

section

variable (hK : GroundInvariant K) (h : K g)

include hK h

theorem GroundInvariant.startup {startup : Startup} (hheld : ∀ c ∈ startup.state, g.file = some c) (ok : Bool)
    (tokens : List String) : Proceeds K g (act g ⟨startup, none, none, none, []⟩ (.startup ok tokens)) := by
  have hadvanced := Startup.advanced hK h ok
    (⟨startup, none, none, none, []⟩ : NodeProcess).locked tokens startup hheld
  have hfinished (spawned : Spawn) (hspawn : (startup.step g ok
      (⟨startup, none, none, none, []⟩ : NodeProcess).locked tokens).2.2 = some spawned) :=
    (Startup.of_spawn hspawn).1
  unfold act
  dsimp only
  rcases hstep : startup.step g ok (⟨startup, none, none, none, []⟩ : NodeProcess).locked tokens with
    ⟨g', startup', _ | spawned⟩
  · rw [hstep] at hadvanced
    refine hadvanced.next (.startup ?_)
    intro c hc
    exact hadvanced.holds c (by simpa using hc)
  · rw [hstep] at hadvanced hfinished
    cases hfinished spawned rfl
    exact hadvanced.next (.spawn (hadvanced.holds _ rfl))

theorem GroundInvariant.request {request : MembershipRequest} (hheld : ∀ c ∈ request.state, g.file = some c)
    (tokens : List String) (topology : Topology) : Proceeds K g
      (act g ⟨.finished, some request, none, none, []⟩ (.request tokens topology)) := by
  have hadvanced := MembershipRequest.advanced hK h tokens topology request hheld
  have hnone (spawned : Spawn) (hspawn : (request.step g tokens topology).2.2 = some spawned) :=
    MembershipRequest.none_of_spawn hspawn
  unfold act
  dsimp only
  rcases hstep : request.step g tokens topology with ⟨g', next, _ | spawned⟩
  · rw [hstep] at hadvanced
    cases next with
    | none => exact hadvanced.next .idle
    | some request' =>
      refine hadvanced.next (.request ?_)
      intro c hc
      exact hadvanced.holds c (by simpa [heldBy] using hc)
  · rw [hstep] at hadvanced hnone
    cases hnone spawned rfl
    exact hadvanced.next (.spawn (hadvanced.holds _ rfl))

theorem GroundInvariant.join {stage : JoinStage} (hheld : g.file = some stage.state) (ok : Bool) :
    Proceeds K g (act g ⟨.finished, none, some stage, none, []⟩ (.joinTask ok)) := by
  have hadvanced := JoinStage.advanced hK h ok stage hheld
  unfold act
  dsimp only
  rcases hstep : stage.step g ok with ⟨g', _ | stage'⟩
  · rw [hstep] at hadvanced
    exact hadvanced.next .idle
  · rw [hstep] at hadvanced
    exact hadvanced.next (.join (hadvanced.holds _ rfl))

theorem GroundInvariant.drain {stage : DrainStage} (hheld : g.file = some stage.state) (ok : Bool) :
    Proceeds K g (act g ⟨.finished, none, none, some stage, []⟩ (.drainTask ok)) := by
  have hadvanced := DrainStage.advanced hK h ok stage hheld
  unfold act
  dsimp only
  rcases hstep : stage.step g ok with ⟨g', _ | stage'⟩
  · rw [hstep] at hadvanced
    exact hadvanced.next .idle
  · rw [hstep] at hadvanced
    exact hadvanced.next (.drain (hadvanced.holds _ rfl))

end

def NodeProcess.unready (p : NodeProcess) : LifecycleAction → Bool
  | .requestJoin _ => p.startup ≠ .finished
  | .requestDrain => p.startup ≠ .finished
  | _ => false

theorem Orderly.begin {startup : Startup} (h : Orderly K g ⟨startup, none, none, none, []⟩)
    (hfinished : startup = .finished) {request : MembershipRequest} (hstate : request.state = none)
    (c : Bool) : Proceeds K g (if c then (g, ⟨startup, some request, none, none, []⟩)
      else (g, ⟨startup, none, none, none, []⟩)) := by
  subst hfinished
  cases c with
  | false => exact h.stay
  | true =>
    refine ⟨⟨h.kept, .request ?_⟩, refl _⟩
    rw [hstate]
    exact nofun

theorem Orderly.act (hK : GroundInvariant K) (h : Orderly K g p) (a : LifecycleAction)
    (hready : p.unready a = false) : Proceeds K g (act g p a) := by
  have hidle : Orderly K g ⟨.finished, none, none, none, []⟩ := ⟨h.kept, .idle⟩
  cases h.sole with
  | @startup startup hheld =>
    cases a with
    | startup ok tokens => exact hK.startup h.kept hheld ok tokens
    | failStartup => exact hidle.stay
    | requestJoin seeds => exact h.begin (by simpa [unready] using hready) rfl _
    | requestDrain => exact h.begin (by simpa [unready] using hready) rfl _
    | _ => exact h.stay
  | @request request hheld =>
    cases a with
    | request tokens topology => exact hK.request h.kept hheld tokens topology
    | failRequest => exact hidle.stay
    | _ => exact h.stay
  | @join stage hheld =>
    cases a with
    | joinTask ok => exact hK.join h.kept hheld ok
    | failJoin => exact hidle.stay
    | _ => exact h.stay
  | @drain stage hheld =>
    cases a with
    | drainTask ok => exact hK.drain h.kept hheld ok
    | failDrain => exact hidle.stay
    | _ => exact h.stay

end Processes

namespace NodeLifecycle

variable {address : String} {a : LifecycleAction}

def steady (address : String) (s : NodeLifecycle) : LifecycleAction → Bool
  | .boot config _ => config.advertise = address
  | .requestJoin _ => s.started
  | .requestDrain => s.started
  | _ => true

structure Tidy (address : String) (s : NodeLifecycle) : Prop where
  coherent : Coherent address s.ground
  process : ∀ p ∈ s.process,
    Orderly (fun g => Coherent address g ∧ g.config.advertise = address) s.ground p

theorem ready_of_steady {g : Ground} {p : NodeProcess} (h : steady address ⟨g, some p⟩ a = true) :
    p.unready a = false := by
  cases a with
  | requestJoin seeds => simpa [steady, started, unready] using h
  | requestDrain => simpa [steady, started, unready] using h
  | _ => rfl

theorem step_some {g : Ground} {p : NodeProcess} (ha : a ≠ .crash) :
    step ⟨g, some p⟩ a = ⟨(act g p a).1, some (act g p a).2⟩ := by
  cases a with
  | crash => exact absurd rfl ha
  | _ => rfl

theorem Tidy.boot {g : Ground} {config : NodeConfig} (h : Coherent address g)
    (hadvertise : config.advertise = address) (seeds : List String) :
    Tidy address (boot ⟨g, none⟩ config seeds) where
  coherent := h.same rfl rfl
  process := by
    rintro _ ⟨⟩
    refine ⟨⟨h.same rfl rfl, hadvertise⟩, .startup ?_⟩
    intro c hc
    cases hc

theorem Tidy.step {s : NodeLifecycle} (h : Tidy address s) (hsteady : steady address s a = true) :
    Tidy address (s.step a) ∧ Rises s.ground.file (s.step a).ground.file := by
  obtain ⟨g, process⟩ := s
  cases process with
  | none =>
    cases a with
    | boot config seeds => exact ⟨Tidy.boot h.coherent (by simpa [steady] using hsteady) seeds, refl _⟩
    | _ => exact ⟨h, refl _⟩
  | some p =>
    by_cases ha : a = .crash
    · rw [ha]
      refine ⟨⟨h.coherent, ?_⟩, refl _⟩
      intro p hp
      cases hp
    · have hact := (h.process p rfl).act (coherent_invariant address) a (ready_of_steady hsteady)
      rw [step_some ha]
      refine ⟨⟨hact.orderly.kept.1, ?_⟩, hact.rises⟩
      intro p' hp'
      cases hp'
      exact hact.orderly

theorem Tidy.run {s : NodeLifecycle} {actions : List LifecycleAction} (h : Tidy address s)
    (hsteady : Along NodeLifecycle.step (steady address · ·) s actions) :
    Tidy address (s.run actions) ∧ Rises s.ground.file (s.run actions).ground.file := by
  induction actions generalizing s with
  | nil => exact ⟨h, refl _⟩
  | cons a actions ih =>
    obtain ⟨hallowed, hrest⟩ := hsteady
    obtain ⟨htidy, hrises⟩ := h.step hallowed
    obtain ⟨hlast, hlater⟩ := ih htidy hrest
    exact ⟨hlast, hrises.trans hlater⟩

def fresh (config : NodeConfig) (file : Option NodeState) : NodeLifecycle :=
  ⟨⟨config, file, [], .opened, false⟩, none⟩

theorem tidy_fresh (address : String) (config : NodeConfig) (file : Option NodeState) :
    Tidy address (fresh config file) := by
  refine ⟨⟨?_, ?_⟩, ?_⟩
  · intro m hm
    cases hm
  · intro m hm
    cases hm
  · intro p hp
    cases hp

theorem run_append (s : NodeLifecycle) (before after : List LifecycleAction) :
    s.run (before ++ after) = (s.run before).run after := List.foldl_append ..

end NodeLifecycle

theorem own_epochs_unambiguous {address : String} {config : NodeConfig} {file : Option NodeState}
    {actions : List LifecycleAction}
    (hsteady : Along NodeLifecycle.step (NodeLifecycle.steady address · ·) (.fresh config file) actions) :
    (∀ before during after, actions = before ++ during ++ after →
      Rises ((NodeLifecycle.fresh config file).run before).ground.file
        ((NodeLifecycle.fresh config file).run (before ++ during)).ground.file) ∧
    ∀ m ∈ ((NodeLifecycle.fresh config file).run actions).ground.published,
      ∀ m' ∈ ((NodeLifecycle.fresh config file).run actions).ground.published, m.epoch = m'.epoch → m = m' := by
  have hfresh := NodeLifecycle.tidy_fresh address config file
  refine ⟨?_, (hfresh.run hsteady).1.coherent.unique⟩
  intro before during after hactions
  rw [hactions] at hsteady
  obtain ⟨hfirst, _⟩ := along_append.mp hsteady
  obtain ⟨hbefore, hduring⟩ := along_append.mp hfirst
  rw [NodeLifecycle.run_append]
  exact ((hfresh.run hbefore).1.run hduring).2

namespace Sample

def lone : NodeConfig := ⟨"n", "a:1", []⟩

def moved : NodeConfig := ⟨"n", "b:1", []⟩

def blank : Topology := ⟨.empty, ∅, nofun⟩

def accompanied : Topology := ⟨.make [⟨5, "b"⟩], ∅, nofun⟩

def drainAcknowledged : List LifecycleAction :=
  [.requestDrain, .request [] accompanied, .request [] accompanied, .request [] accompanied,
    .request [] accompanied, .request [] accompanied]

def newborn : NodeLifecycle := .fresh lone none

def birth (config : NodeConfig) (tokens : List String) : List LifecycleAction :=
  [.boot config [], .startup true [], .startup true [], .startup true tokens, .startup true []]

def reborn (config : NodeConfig) : List LifecycleAction :=
  [.crash, .boot config [], .startup true [], .startup true [], .startup true []]

def rivals : List LifecycleAction :=
  [.boot lone [], .startup true [], .startup true [], .requestJoin ["s:1"], .request [] blank,
    .startup true ["0a"], .startup true [], .request ["0b"] blank, .request [] blank, .joinTask true]

theorem same_epoch_published_twice : (newborn.run (birth lone ["0a"] ++ reborn moved)).ground.published =
      [⟨"n", "a:1", 1, .ready, ["0a"]⟩, ⟨"n", "b:1", 1, .ready, ["0a"]⟩] ∧ (newborn.run rivals).ground.published =
      [⟨"n", "a:1", 1, .ready, ["0a"]⟩, ⟨"n", "a:1", 1, .joining, ["0b"]⟩] := by
  decide +kernel

def departure : List LifecycleAction :=
  [.startup true [], .startup true [], .requestJoin ["s:1"], .request [] blank, .request ["0b"] blank,
    .request [] blank, .joinTask true, .joinTask false, .joinTask true, .joinTask true]

theorem own_epochs_rise : Rises (newborn.run (birth lone ["0a"])).ground.file
      (newborn.run (birth lone ["0a"] ++ departure)).ground.file ∧
    (newborn.run (birth lone ["0a"] ++ departure)).ground.published.map Member.epoch = [1, 2, 3] :=
  ⟨(own_epochs_unambiguous (by decide +kernel :
      Along step (steady "a:1" · ·) newborn
        (birth lone ["0a"] ++ departure))).1 _ departure [] (by rw [List.append_nil]),
    by decide +kernel⟩

end Sample

end Tourillon
