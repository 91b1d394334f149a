import Tourillon.Gossip.Service
import Tourillon.Library.Machine

namespace Tourillon

open Prog Machine TopologyManager GossipService MemberRegistry List Ring

variable {t : TopologyManager} {m : Member} {members : List Member}

def TopologyManager.seats (t : TopologyManager) (nodeId : String) : List VNode :=
  t.ring.vnodes.filter fun v => v.nodeId = nodeId

structure TopologyManager.Settled (t : TopologyManager) (m : Member) : Prop where
  seats : (t.seats m.nodeId).Perm m.seats
  yielding : Ring.Yielding (fun v => v.nodeId = m.nodeId) t.ring.vnodes

structure TopologyManager.Reports (t : TopologyManager) (m : Member) : Prop where
  numbered : m.Numbered
  encodable : t.ring.Encodable
  moves : (t.phaseOf m.nodeId ≠ m.phase ∧ m.phase ∈ ringPhases) ∨ ¬ t.Settled m

def TopologyManager.Reported (t : TopologyManager) (m : Member) : Prop :=
  t.registry.newer m = true → t.Reports m

theorem TopologyManager.settled_iff {ring : Ring} (h : derivedRing t.ring m = .ok ring) :
    t.Settled m ↔ ring = t.ring := by
  rcases derivedRing_cases t.ring m with ⟨e, _, _, he⟩ | ⟨_, ring', hring, hvnodes⟩
  · cases he.symm.trans h
  cases hring.symm.trans h
  have hsorted := pairwise_insertionSort VNode.Before m.seats
  have hperm := perm_insertionSort VNode.Before m.seats
  have hothers : ∀ v ∈ (t.ring.dropNodes [m.nodeId]).vnodes, decide (v.nodeId = m.nodeId) = false := by
    intro v hv
    simpa using (mem_filter.mp hv).2
  have hown : ∀ v ∈ m.seats.insertionSort VNode.Before, decide (v.nodeId = m.nodeId) = true := by
    intro v hv
    exact decide_eq_true (Member.nodeId_of_mem_positions (Member.mem_seats.mp (hperm.mem_iff.mp hv)).2)
  constructor
  · intro hsettled
    have hseats : t.seats m.nodeId = m.seats.insertionSort VNode.Before := by
      refine (hsettled.seats.trans hperm.symm).eq_of_pairwise ?_ (t.ring.sorted.filter _) hsorted
      intro a b ha hb hab hba
      have ha' := (mem_filter.mp ha).2
      have hb' := hown b hb
      cases a
      cases b
      simp only [decide_eq_true_eq] at ha' hb'
      rw [ha', hb', VNode.mk.injEq]
      exact ⟨Int.le_antisymm hab hba, rfl⟩
    refine eq_of_vnodes (hvnodes.trans ?_)
    rw [← hseats]
    have hdropped : (t.ring.dropNodes [m.nodeId]).vnodes =
        t.ring.vnodes.filter fun v => !decide (v.nodeId = m.nodeId) := by
      simp [dropNodes]
    rw [hdropped]
    exact mergeSorted_split t.ring.sorted hsettled.yielding
  · intro heq
    rw [heq] at hvnodes
    constructor
    · rw [TopologyManager.seats, hvnodes, mergeSorted_filter hothers hown]
      exact hperm
    · rw [hvnodes]
      exact mergeSorted_yielding (t.ring.dropNodes _).sorted hothers hown

section Reports

variable [Digests] {flag : Bool} {t' : TopologyManager}

theorem Serials.flag_iff {ring : Ring} {registry : MemberRegistry}
    (h : Serials { t with registry := registry, fingerprint := none } ring (t.registry.get m.nodeId) m flag)
    (hsep : ring.serial = t.ring.serial → ring = t.ring) :
    flag = true ↔ (t.phaseOf m.nodeId ≠ m.phase ∧ m.phase ∈ ringPhases) ∨ ring ≠ t.ring := by
  obtain ⟨serial, previous, hserial, hprevious, hflag⟩ := h.found
  rw [hflag]
  split
  · rename_i hsame
    have hring := hsep (hserial.trans ((congrArg _ hsame).trans hprevious.symm))
    simp [hring, phaseOf]
  · rename_i hne
    refine iff_of_true rfl (.inr fun hring => hne ?_)
    rw [hring] at hserial
    exact Except.ok.inj (hserial.symm.trans hprevious)

theorem apply_reported_iff (hsep : t.Separated m) : (apply m t).1 = .ok (t.registry.newer m) ↔ t.Reported m := by
  rcases apply_cases m t with ⟨hnew, hrun⟩ | ⟨⟨u, hget, hle⟩, hrun⟩
  · rw [hrun, Reported, hnew.newer, forall_prop_of_true rfl]
    rcases updateRing_cases (t.registry.get m.nodeId) m
        { t with registry := t.registry.insert m.nodeId m, fingerprint := none } with
      ⟨e, hfailed, hupdate⟩ | ⟨ring, hring, ⟨e, hfailed, hupdate⟩ | ⟨flag, hserials, hupdate⟩⟩
    · rw [hupdate]
      refine iff_of_false nofun fun hreports => ?_
      obtain ⟨ring, hring, _⟩ := hreports.encodable.derivable_iff.mpr hreports.numbered
      cases hring.symm.trans hfailed
    · rw [hupdate]
      refine iff_of_false nofun fun hreports => ?_
      obtain ⟨ring', hring', hencodable⟩ := hreports.encodable.derivable_iff.mpr hreports.numbered
      cases hring'.symm.trans hring
      obtain ⟨serial, hserial⟩ := serial_ok_iff.mpr hencodable
      obtain ⟨previous, hprevious⟩ := serial_ok_iff.mpr hreports.encodable
      rcases hfailed with hfailed | hfailed
      · cases hserial.symm.trans hfailed
      · cases hprevious.symm.trans hfailed
    · rw [hupdate]
      obtain ⟨serial, previous, hserial, hprevious, _⟩ := hserials.found
      have hencodable : t.ring.Encodable := serial_ok_iff.mp ⟨previous, hprevious⟩
      have hnumbered := hencodable.derivable_iff.mp
        ⟨ring, hring, serial_ok_iff.mp ⟨serial, hserial⟩⟩
      have hnext : t.nextRing m = ring := by
        rw [nextRing, hring]
        rfl
      have hflag := hserials.flag_iff fun heq => hnext ▸ hsep serial (hnext ▸ hserial) (heq ▸ hserial)
      have hsettled : t.Settled m ↔ ring = t.ring := settled_iff hring
      rw [ne_eq, ne_eq, ← hsettled] at hflag
      show Except.ok flag = Except.ok true ↔ _
      rw [Except.ok.injEq, hflag]
      exact ⟨fun hmoves => ⟨hnumbered, hencodable, hmoves⟩, fun hreports => hreports.moves⟩
  · rw [hrun, newer_eq_false hget hle]
    refine iff_of_true rfl fun hnew => ?_
    rw [newer_eq_false hget hle] at hnew
    cases hnew

theorem newer_of_flag (h : apply m t = (.ok true, t')) : t.registry.newer m = true := by
  rcases apply_cases m t with ⟨hnew, _⟩ | ⟨_, hrun⟩
  · exact hnew.newer
  · cases hrun.symm.trans h

theorem applyMember_run (h : (apply m t).1 = .ok flag) :
    ∃ t', applyMember m t = (.ok flag, t') ∧ t'.registry = t.registry.replaced m := by
  have hregistry := apply_registry m t
  rcases hrun : apply m t with ⟨result, t'⟩
  rw [hrun] at h hregistry
  cases h
  rw [applyMember, bind_ok hrun]
  cases flag with
  | false => exact ⟨t', rfl, hregistry⟩
  | true => exact ⟨_, rfl, hregistry⟩

theorem of_applyMember (h : applyMember m t = (.ok flag, t')) : (apply m t).1 = .ok flag := by
  obtain ⟨changed, t₁, hrun, hrest⟩ := of_bind_ok h
  obtain ⟨_, t₂, _, hdone⟩ := of_bind_ok hrest
  cases hdone
  rw [hrun]

theorem collect_reported (hsep : Along applied Separated t members) (h : Along applied Reported t members) :
    ∃ flags t', collect members apply t = (.ok flags, t') ∧
      flags.count true = (t.registry.accepted members).length := by
  induction members generalizing t with
  | nil => exact ⟨[], t, rfl, rfl⟩
  | cons m members ih =>
    obtain ⟨flags, t', hrest, hcount⟩ := ih hsep.2 h.2
    have hresult := (apply_reported_iff hsep.1).mpr h.1
    have hstate := apply_registry m t
    rw [applied] at hrest hcount
    rcases hrun : apply m t with ⟨result, t₁⟩
    rw [hrun] at hresult hstate hrest hcount
    cases hresult
    refine ⟨t.registry.newer m :: flags, t', ?_, ?_⟩
    · rw [collect, bind_ok hrun, bind_ok hrest]
      rfl
    · rw [accepted, count_cons, hcount, hstate]
      cases t.registry.newer m with
      | true => simp
      | false => simp

theorem of_collect {flags : List Bool} (hsep : Along applied Separated t members)
    (h : collect members apply t = (.ok flags, t')) : t'.registry = members.foldl replaced t.registry ∧
      flags.count true ≤ (t.registry.accepted members).length ∧
      (flags.count true = (t.registry.accepted members).length → Along applied Reported t members) := by
  induction members generalizing t flags with
  | nil =>
    cases h
    exact ⟨rfl, le_rfl, fun _ => trivial⟩
  | cons m members ih =>
    obtain ⟨flag, t₁, hrun, hrest⟩ := of_bind_ok h
    obtain ⟨rest, t₂, htail, hdone⟩ := of_bind_ok hrest
    cases hdone
    have hstate := apply_registry m t
    obtain ⟨hsepm, hseprest⟩ := hsep
    have hreported := apply_reported_iff hsepm
    rw [applied, hrun] at hseprest
    rw [hrun] at hstate hreported
    obtain ⟨hregistry, hle, heq⟩ := ih hseprest htail
    rw [hstate] at hregistry hle heq
    rw [accepted, count_cons, Along, applied, hrun, ← hreported]
    refine ⟨hregistry, ?_⟩
    cases hnew : t.registry.newer m with
    | true =>
      cases flag with
      | true => simpa [hnew] using ⟨hle, heq⟩
      | false =>
        simp only [if_pos, length_cons]
        exact ⟨by simp; omega, by simp; omega⟩
    | false =>
      cases flag with
      | true => exact absurd (newer_of_flag hrun) (by simp [hnew])
      | false => simpa [hnew] using ⟨hle, heq⟩

theorem mergeRegistry_reported_iff (hsep : Along applied Separated t members) :
    (∃ t', mergeRegistry members t = (.ok (t.registry.accepted members).length, t') ∧
      t'.registry = members.foldl replaced t.registry) ↔ Along applied Reported t members := by
  constructor
  · rintro ⟨t', hrun, _⟩
    obtain ⟨flags, t₁, hcollect, hrest⟩ := of_bind_ok hrun
    obtain ⟨_, t₂, _, hdone⟩ := of_bind_ok hrest
    exact (of_collect hsep hcollect).2.2 (Except.ok.inj (Prod.mk.inj hdone).1)
  · intro h
    obtain ⟨flags, t', hrun, hcount⟩ := collect_reported hsep h
    obtain ⟨hregistry, _⟩ := of_collect hsep hrun
    obtain ⟨t'', hnotify, hkeeps⟩ : ∃ t'', whenever (flags.count true ≠ 0) notify t' =
        (.ok (), t'') ∧ t''.registry = t'.registry := by
      unfold whenever
      split
      · exact ⟨_, rfl, rfl⟩
      · exact ⟨_, rfl, rfl⟩
    refine ⟨t'', ?_, hkeeps.trans hregistry⟩
    rw [mergeRegistry, bind_ok hrun, bind_ok hnotify, ← hcount]
    rfl

variable (between : Nat → List TopologyCall)

def TopologyManager.facing (s : Nat × TopologyManager) : TopologyManager :=
  (between s.1).foldl TopologyCall.run s.2

def TopologyManager.turned (s : Nat × TopologyManager) (m : Member) : Nat × TopologyManager :=
  (s.1 + 1, (applyMember m (facing between s)).2)

def TopologyManager.newerLocally : Nat × TopologyManager → List Member → List Member
  | _, [] => []
  | s, m :: members =>
    if (facing between s).registry.newer m then m :: newerLocally (turned between s m) members
    else newerLocally (turned between s m) members

variable {between} {s : Nat × TopologyManager}

theorem acceptEach_reported (hsep : Along (turned between) (fun s => (facing between s).Separated) s members)
    (h : Along (turned between) (fun s => (facing between s).Reported) s members) (accepted : List Member)
    (ignored : Nat) : ∃ t', acceptEach between s.1 members accepted ignored s.2 =
      (.ok (accepted ++ newerLocally between s members,
        ignored + (members.length - (newerLocally between s members).length)), t') ∧
      (newerLocally between s members).length ≤ members.length := by
  induction members generalizing s accepted ignored with
  | nil =>
    refine ⟨s.2, ?_, le_rfl⟩
    rw [acceptEach]
    simp [newerLocally]
    rfl
  | cons m members ih =>
    obtain ⟨t₁, hrun, _⟩ := applyMember_run ((apply_reported_iff hsep.1).mpr h.1)
    have hturned : turned between s m = (s.1 + 1, t₁) := by rw [turned, hrun]
    have ih := ih (hturned ▸ hsep.2) (hturned ▸ h.2)
    rw [acceptEach, bind_ok (rfl : modify _ s.2 = (.ok (), facing between s)), bind_ok hrun, newerLocally, hturned]
    cases hnew : (facing between s).registry.newer m with
    | true =>
      obtain ⟨t', hrest, hle⟩ := ih (accepted ++ [m]) ignored
      refine ⟨t', ?_, ?_⟩
      · simpa using hrest
      · simpa using hle
    | false =>
      obtain ⟨t', hrest, hle⟩ := ih accepted (ignored + 1)
      refine ⟨t', ?_, ?_⟩
      · have hcount : ignored + 1 + (members.length - (newerLocally between (s.1 + 1, t₁) members).length) =
            ignored + ((m :: members).length - (newerLocally between (s.1 + 1, t₁) members).length) := by
          rw [length_cons]
          omega
        rw [hcount] at hrest
        simpa using hrest
      · simp only [Bool.false_eq_true, ↓reduceIte, length_cons]
        omega

theorem of_acceptEach {accepted result : List Member} {ignored n : Nat}
    (hsep : Along (turned between) (fun s => (facing between s).Separated) s members)
    (h : acceptEach between s.1 members accepted ignored s.2 = (.ok (result, n), t')) :
    result.length ≤ accepted.length + (newerLocally between s members).length ∧
      (result.length = accepted.length + (newerLocally between s members).length →
        Along (turned between) (fun s => (facing between s).Reported) s members) := by
  induction members generalizing s accepted ignored with
  | nil =>
    cases h
    exact ⟨le_rfl, fun _ => trivial⟩
  | cons m members ih =>
    rw [acceptEach, bind_ok (rfl : modify _ s.2 = (.ok (), facing between s))] at h
    obtain ⟨flag, t₁, hrun, hrest⟩ := of_bind_ok h
    have hturned : turned between s m = (s.1 + 1, t₁) := by rw [turned, hrun]
    have hflag := of_applyMember hrun
    have hreported := apply_reported_iff hsep.1
    rw [hflag] at hreported
    rw [newerLocally, Along, hturned, ← hreported]
    cases flag with
    | true =>
      have hnew : (facing between s).registry.newer m = true := by
        rcases happly : apply m (facing between s) with ⟨r, t₂⟩
        rw [happly] at hflag
        cases hflag
        exact newer_of_flag happly
      have ih := ih (s := (s.1 + 1, t₁)) (hturned ▸ hsep.2) hrest
      rw [length_append, length_singleton] at ih
      rw [hnew, if_pos rfl, length_cons]
      exact ⟨by omega, fun heq => ⟨rfl, ih.2 (by omega)⟩⟩
    | false =>
      have ih := ih (s := (s.1 + 1, t₁)) (hturned ▸ hsep.2) hrest
      cases hnew : (facing between s).registry.newer m with
      | true =>
        rw [if_pos rfl, length_cons]
        exact ⟨by omega, fun heq => by omega⟩
      | false =>
        rw [if_neg nofun]
        exact ⟨ih.1, fun heq => ⟨rfl, ih.2 heq⟩⟩

end Reports

namespace Sample

end Sample

end Tourillon
