import Tourillon.Library.Machine
import Tourillon.Store.FleetSafety

namespace Tourillon

open Endian Exceptional Machine Fleet HLCClock

def Fleet.Heard (f : Fleet) (node : String) (ts : HLCTimestamp) : Prop :=
  ts.stamp ≤ (f.sites node).clock.snapshot.stamp ∨ (ts.wallMs : Int) < (f.sites node).wall

instance (f : Fleet) (node : String) (ts : HLCTimestamp) : Decidable (f.Heard node ts) :=
  inferInstanceAs (Decidable (_ ∨ _))

structure Restartable (d : Deployment) (groups : Groups) : Prop where
  placed : ∀ group, (groups group).held.Nonempty → group < d.partitioner.totalGroups
  latestLast : groups.LatestLast d.partitioner.totalGroups

structure ClockFed (d : Deployment) (f : Fleet) (a : FleetAction) : Prop where
  steady : ∀ node nowMs, a = .wall node nowMs → (f.sites node).wall ≤ nowMs
  recovered : ∀ node, a = .restart node → Restartable d (f.sites node).groups
  heard : ∀ node, ∀ r ∈ a.delivers f node, f.Heard node r.key.ts

section Runs

variable [Blake2b] {d : Deployment} {node : String} {f : Fleet}

omit [Blake2b] in
theorem Fleet.Heard.mono {f' : Fleet} {ts : HLCTimestamp} (h : f.Heard node ts)
    (hclock : (f.sites node).clock.snapshot.stamp ≤ (f'.sites node).clock.snapshot.stamp)
    (hwall : (f.sites node).wall ≤ (f'.sites node).wall) : f'.Heard node ts :=
  h.imp (fun hle => hle.trans hclock) fun hlt => hlt.trans_le hwall

def Fleet.Informed (f : Fleet) : Prop := ∀ node group, ∀ k ∈ (f.storage node group).held, f.Heard node k.ts

inductive ClockMove (d : Deployment) (a : FleetAction) (node : String) (site site' : Site) : Prop where
  | same (clock : site'.clock = site.clock) (wall : site'.wall = site.wall)
  | reads (nowMs : Int) (action : a = .wall node nowMs) (clock : site'.clock = site.clock)
      (wall : site'.wall = nowMs)
  | ticks (clock : site'.clock = site.clock.advance site.wall) (wall : site'.wall = site.wall)
  | restores (action : a = .restart node) (latest : HLCTimestamp)
      (found : site.groups.latestHlc d.partitioner.totalGroups = .ok latest)
      (clock : site'.clock = restored site.clock latest) (wall : site'.wall = site.wall)

omit [Blake2b] in
theorem move_withStorage (a : FleetAction) (f : Fleet) (node n : String) (group : Nat)
    (g : GroupStorage) : ClockMove d a n (f.sites n) ((f.withStorage node group g).sites n) := by
  unfold withStorage withSite
  dsimp only
  split
  · rename_i hn
    rw [hn]
    exact .same rfl rfl
  · exact .same rfl rfl

omit [Blake2b] in
theorem move_send (a : FleetAction) (f : Fleet) (found : Except PyError (Option Record))
    (codec : Codec) (n : String) : ClockMove d a n (f.sites n) ((f.send found codec).sites n) := by
  rcases f.send_cases found codec with hsame | ⟨r, m, _, _, hsent⟩
  · rw [hsame]
    exact .same rfl rfl
  · rw [hsent]
    exact .same rfl rfl

omit [Blake2b] in
theorem sites_withClock (f : Fleet) (node n : String) (clock : HLCClock) : (f.withClock node clock).sites n =
      if n = node then { f.sites n with clock := clock } else f.sites n := by
  unfold withClock withSite
  dsimp only
  split
  · rename_i hn
    rw [hn]
  · rfl

omit [Blake2b] in
theorem sites_register (f : Fleet) (node n : String) (found : Except PyError Record × HLCClock) :
    (f.register node found).sites n =
      if n = node then { f.sites n with clock := found.2 } else f.sites n := by
  obtain ⟨found, clock⟩ := found
  cases found with
  | ok r => exact sites_withClock f node n clock
  | error e => exact sites_withClock f node n clock

theorem step_clock (d : Deployment) (f : Fleet) (a : FleetAction) (node : String) :
    ClockMove d a node (f.sites node) ((f.step d a).sites node) := by
  cases a with
  | wall n nowMs =>
    dsimp only [step, withSite]
    split
    · rename_i hn
      subst hn
      exact .reads nowMs rfl rfl rfl
    · exact .same rfl rfl
  | stamp n addr value pid tombstone quorum =>
    dsimp only [step]
    split
    · rw [sites_register]
      split
      · rename_i hn
        subst hn
        exact .ticks rfl rfl
      · exact .same rfl rfl
    · exact .same rfl rfl
  | restart n =>
    dsimp only [step]
    split
    · rename_i latest hlatest
      rw [sites_withClock]
      split
      · rename_i hn
        subst hn
        exact .restores rfl latest hlatest rfl rfl
      · exact .same rfl rfl
    · exact .same rfl rfl
  | relay message codec => exact move_send _ f _ codec node
  | forward n key codec => exact move_send _ f _ codec node
  | forwardLatest n addr codec => exact move_send _ f _ codec node
  | write n message faults =>
    dsimp only [step]
    split
    · exact move_withStorage _ f n node _ _
    · exact .same rfl rfl
  | oblige n message targets faults =>
    dsimp only [step]
    split
    · exact move_withStorage _ f n node _ _
    · exact .same rfl rfl
  | apply n pid messages faults =>
    dsimp only [step]
    split
    · exact move_withStorage _ f n node _ _
    · exact .same rfl rfl
  | collect n i keys dryRun faults => exact move_withStorage _ f n node _ _
  | forget n i obligations faults => exact move_withStorage _ f n node _ _

theorem restored_covers (hc : Consistent f) (hr : Restartable d (f.sites node).groups) {latest : HLCTimestamp}
    (hlatest : (f.sites node).groups.latestHlc d.partitioner.totalGroups = .ok latest) (group : Nat) {k : Key}
    (hk : k ∈ (f.storage node group).held) :
    k.ts.stamp ≤ (restored (f.sites node).clock latest).snapshot.stamp := by
  obtain ⟨found, hfound, hiff⟩ := latestHlc_covers
    fun group _ => (hc.clean node group).toSound
  obtain rfl : found = latest := Except.ok.inj (hfound.symm.trans hlatest)
  have hle := hiff.mpr hr.latestLast group (hr.placed group ⟨k, hk⟩) k hk
  exact (HLCTimestamp.stamp_le_of_le hle).trans (restore_stamp _ found)

theorem Fleet.Informed.step (hc : Consistent f) (h : f.Informed) {a : FleetAction}
    (hfed : ClockFed d f a) : (f.step d a).Informed := by
  intro node group k hk
  have hheard : f.Heard node k.ts := by
    rcases ((hc.step a).effect node group).held (hc.clean node group).toHolding hk with
      hold | ⟨r, hr, rfl⟩
    · exact h node group k hold
    · exact hfed.heard node r hr
  cases step_clock d f a node with
  | same clock wall =>
    apply hheard.mono
    · rw [clock]
    · rw [wall]
  | reads nowMs action clock wall =>
    apply hheard.mono
    · rw [clock]
    · rw [wall]
      exact hfed.steady node nowMs action
  | ticks clock wall =>
    apply hheard.mono
    · rw [clock]
      exact (advance_stamp _ _).le
    · rw [wall]
  | restores action latest found clock wall =>
    left
    rw [clock]
    refine restored_covers hc (hfed.recovered node action) found group ?_
    rcases ((hc.step a).effect node group).held (hc.clean node group).toHolding hk with
      hold | ⟨r, hr, _⟩
    · exact hold
    · rw [action] at hr
      cases hr

theorem Fleet.Informed.run (hc : Consistent f) (h : f.Informed) {acts : List FleetAction}
    (hfed : Along (Fleet.step d) (ClockFed d) f acts) : (f.run d acts).Informed := by
  induction acts generalizing f with
  | nil => exact h
  | cons a acts ih => exact ih (hc.step a).consistent (h.step hc hfed.1) hfed.2

omit [Blake2b] in
theorem stamped_after_heard {ts : HLCTimestamp} (h : f.Heard node ts) :
    ts < ((f.sites node).clock.advance (f.sites node).wall).snapshot := by
  apply HLCTimestamp.lt_of_stamp_lt
  rcases h with hle | hlt
  · exact hle.trans_lt (advance_stamp _ _)
  · rw [stamp_lt_iff]
    left
    have hwall := advance_wallMs_le (f.sites node).clock (f.sites node).wall
    simp only [snapshot]
    omega

theorem coordinator_stamps_after (hf : f.Initial) {acts : List FleetAction}
    (hfed : Along (Fleet.step d) (ClockFed d) f acts) (pre mid rest : List FleetAction) (node : String)
    (addr : Address) (value : Bytes) (pid : Nat) (tombstone : Bool) (quorum : Int)
    (hsplit : acts = pre ++ (mid ++ .stamp node addr value pid tombstone quorum :: rest))
    (group : Nat) (k : Key) (hk : k ∈ ((f.run d pre).storage node group).held) (r : Record)
    (hr : (writeRecord ((f.run d (pre ++ mid)).sites node).clock
      ((f.run d (pre ++ mid)).sites node).wall addr value pid tombstone quorum.toNat).1 = .ok r) :
    k.ts < r.key.ts := by
  have hpre : Consistent (f.run d pre) := hf.consistent.run pre
  have hnow : Consistent (f.run d (pre ++ mid)) := hf.consistent.run _
  rw [hsplit, ← List.append_assoc] at hfed
  have hempty : f.Informed := by
    intro n i q hq
    rw [hf.groups] at hq
    cases hq
  have hinformed := hempty.run hf.consistent (along_append.mp hfed).1
  have hreach : ((f.run d (pre ++ mid)).storage node group).Reaches k.partitionAddress k.ts := by
    rw [Fleet.run_append]
    exact hpre.reaches mid ⟨k, hk, rfl, le_rfl⟩
  obtain ⟨k', hk', _, hle⟩ := hreach
  have hts := (writeRecord_ok (Prod.ext hr rfl)).2.1
  calc k.ts ≤ k'.ts := hle
    _ < _ := stamped_after_heard (hinformed node group k' hk')
    _ = r.key.ts := by rw [hts]

end Runs

namespace Sample

def skewed : List FleetAction :=
  [.wall "a" 9, .stamp "a" ⟨[1], [2]⟩ [3] 0 false 1, .relay 0 .dict, .write "b" 1 calm, .wall "b" 5]

theorem coordinator_stamps_before : firstKey ∈ ((sites.run deployment skewed).storage "b" 0).held ∧
    ((writeRecord ((sites.run deployment skewed).sites "b").clock
      ((sites.run deployment skewed).sites "b").wall ⟨[1], [2]⟩ [4] 0 false 1).1.toOption.map
        fun r => decide (r.key.ts < firstKey.ts)) = some true := by
  decide +kernel

def firstRecord : Record := ⟨⟨firstKey, ⟨.live, {}⟩⟩, ⟨[3], 1, size_three⟩⟩

def rewriting : List FleetAction :=
  [.wall "a" 9, .stamp "a" ⟨[1], [2]⟩ [3] 0 false 1, .relay 0 .dict, .wall "b" 12, .write "b" 1 calm]

theorem rewriting_fed (rest : List FleetAction)
    (h : Along (step deployment) (ClockFed deployment) (sites.run deployment rewriting) rest) :
    Along (step deployment) (ClockFed deployment) sites (rewriting ++ rest) := by
  refine ⟨⟨?_, nofun, nofun⟩, ⟨nofun, nofun, nofun⟩, ⟨nofun, nofun, nofun⟩, ⟨?_, nofun, nofun⟩,
    ⟨nofun, nofun, ?_⟩, h⟩
  · rintro node nowMs ⟨⟩
    decide
  · rintro node nowMs ⟨⟩
    decide +kernel
  · intro node r hr
    dsimp only [FleetAction.delivers] at hr
    split at hr
    · rename_i hn
      subst hn
      have hlist : (received (sites.run deployment (rewriting.take 4)) 1).toList = [firstRecord] := by
        decide +kernel
      have hfirst : r = firstRecord := List.mem_singleton.mp (hlist ▸ hr)
      subst hfirst
      decide +kernel
    · cases hr

theorem coordinator_rewrites_after : firstKey ∈ ((sites.run deployment rewriting).storage "b" 0).held ∧
    ∃ r ∈ (writeRecord ((sites.run deployment rewriting).sites "b").clock
      ((sites.run deployment rewriting).sites "b").wall ⟨[1], [2]⟩ [4] 0 true 1).1.toOption,
        firstKey.ts < r.key.ts := by
  have hheld : firstKey ∈ ((sites.run deployment rewriting).storage "b" 0).held := by decide +kernel
  have hsome : ((writeRecord ((sites.run deployment rewriting).sites "b").clock
      ((sites.run deployment rewriting).sites "b").wall ⟨[1], [2]⟩ [4] 0 true 1).1.toOption).isSome := by
    decide +kernel
  obtain ⟨r, hr⟩ := Option.isSome_iff_exists.mp hsome
  have hfed := rewriting_fed [.stamp "b" ⟨[1], [2]⟩ [4] 0 true 1] ⟨⟨nofun, nofun, nofun⟩, trivial⟩
  exact ⟨hheld, r, hr, coordinator_stamps_after sites_initial hfed rewriting [] [] "b" ⟨[1], [2]⟩ [4] 0
    true 1 rfl 0 firstKey hheld r (mem_toOption.mp hr)⟩

end Sample

end Tourillon
