import Tourillon.Gossip.Ring
import Tourillon.Library.OrderedMap
import Tourillon.Library.Program
import Mathlib.Data.String.Basic

namespace Tourillon

open Endian Exceptional Prog Member OrderedMap Ring

abbrev MemberRegistry := OrderedMap String Member

def MemberRegistry.upsert (r : MemberRegistry) (m : Member) : Bool × MemberRegistry :=
  match r.get m.nodeId with
  | some current => if !m.supersedes current then (false, r) else (true, r.insert m.nodeId m)
  | none => (true, r.insert m.nodeId m)

def ringPhases : List MemberPhase := [.joining, .ready, .paused, .draining]

structure TopologyManager where
  registry : MemberRegistry
  ring : Ring
  generation : Nat
  fingerprint : Option String

def TopologyManager.phaseOf (t : TopologyManager) (nodeId : String) : MemberPhase :=
  ((t.registry.get nodeId).map fun m => m.phase).getD .idle

abbrev Topo (α : Type) : Type := Prog TopologyManager PyError α

namespace TopologyManager

def start : TopologyManager := ⟨∅, .empty, 0, none⟩

variable [Digests]

def notify : Topo Unit := modify fun t => { t with generation := t.generation + 1 }

def derivedRing (previous : Ring) (new : Member) : Except PyError Ring :=
  let ring := previous.dropNodes [new.nodeId]
  if new.phase ∈ ringPhases then new.vnodes.map ring.addVnodes else .ok ring

def updateRing (old : Option Member) (new : Member) : Topo Bool := do
  let oldPhase := (old.map fun m => m.phase).getD .idle
  let t ← get
  let ring ← lift (derivedRing t.ring new)
  modify fun t => { t with ring := ring }
  let serial ← lift ring.serial
  let previous ← lift t.ring.serial
  if serial = previous then pure (oldPhase ≠ new.phase && new.phase ∈ ringPhases) else pure true

def apply (m : Member) : Topo Bool := do
  let t ← get
  let old := t.registry.get m.nodeId
  let (accepted, registry) := t.registry.upsert m
  if !accepted then pure false
  else do
    modify fun t => { t with registry := registry, fingerprint := none }
    updateRing old m

def applyMember (m : Member) : Topo Bool := do
  let changed ← apply m
  whenever (changed = true) notify
  pure changed

def mergeRegistry (members : List Member) : Topo Nat := do
  let flags ← collect members apply
  let accepted := flags.count true
  whenever (accepted ≠ 0) notify
  pure accepted

def computeFingerprint (r : MemberRegistry) : Except PyError String := do
  let parts ← r.entries.mapM fun e => do
    let epoch ← intToBytes e.2.epoch 8
    return encodeUtf8 e.2.nodeId ++ epoch
  return Digests.sha256 parts.flatten

def memberFingerprint : Topo String := do
  let t ← get
  match t.fingerprint with
  | some found => pure found
  | none => do
    let found ← lift (computeFingerprint t.registry)
    modify fun t => { t with fingerprint := some found }
    pure found

end TopologyManager

inductive TopologyCall where
  | applyMember (m : Member)
  | mergeRegistry (members : List Member)
  | memberFingerprint

namespace TopologyCall

def records : TopologyCall → List Member
  | applyMember m => [m]
  | mergeRegistry members => members
  | memberFingerprint => []

def given (calls : List TopologyCall) : Set Member := {m | ∃ call ∈ calls, m ∈ call.records}

variable [Digests]

def run (t : TopologyManager) : TopologyCall → TopologyManager
  | applyMember m => (TopologyManager.applyMember m t).2
  | mergeRegistry members => (TopologyManager.mergeRegistry members t).2
  | memberFingerprint => (TopologyManager.memberFingerprint t).2

def runAll (calls : List TopologyCall) : TopologyManager := calls.foldl run .start

end TopologyCall

theorem upsert_cases (r : MemberRegistry) (m : Member) :
    (r.upsert m = (true, r.insert m.nodeId m) ∧ ∀ u ∈ r.get m.nodeId, u.epoch < m.epoch) ∨
      (r.upsert m = (false, r) ∧ ∃ u, r.get m.nodeId = some u ∧ m.epoch ≤ u.epoch) := by
  unfold MemberRegistry.upsert
  cases hget : r.get m.nodeId with
  | none => exact .inl ⟨rfl, nofun⟩
  | some current =>
    simp only [supersedes, Option.mem_def, Option.some.injEq, forall_eq', exists_eq_left']
    rcases Nat.lt_or_ge current.epoch m.epoch with hlt | hge
    · simp [hlt]
    · simp [Nat.not_lt.mpr hge, hge]

namespace MemberRegistry

variable {r : MemberRegistry} {m : Member} {members : List Member}

def newer (r : MemberRegistry) (m : Member) : Bool :=
  match r.get m.nodeId with
  | none => true
  | some u => u.epoch < m.epoch

def replaced (r : MemberRegistry) (m : Member) : MemberRegistry :=
  if r.newer m then r.insert m.nodeId m else r

def accepted : MemberRegistry → List Member → List Member
  | _, [] => []
  | r, m :: members =>
    if r.newer m then m :: accepted (r.replaced m) members else accepted (r.replaced m) members

structure Newer (r : MemberRegistry) (m : Member) : Prop where
  above : ∀ u ∈ r.get m.nodeId, u.epoch < m.epoch

theorem Newer.newer (h : r.Newer m) : r.newer m = true := by
  have habove := h.above
  unfold MemberRegistry.newer
  cases hget : r.get m.nodeId with
  | none => rfl
  | some u => simpa using habove u hget

theorem newer_eq_false {u : Member}
    (hget : r.get m.nodeId = some u) (hle : m.epoch ≤ u.epoch) : r.newer m = false := by
  simpa [newer, hget] using hle

theorem mem_of_accepted (h : m ∈ r.accepted members) : m ∈ members := by
  induction members generalizing r with
  | nil => exact h
  | cons first members ih =>
    rw [accepted] at h
    split at h
    · rcases List.mem_cons.mp h with rfl | hrest
      · exact List.mem_cons_self
      · exact List.mem_cons_of_mem _ (ih hrest)
    · exact List.mem_cons_of_mem _ (ih h)

theorem forall_accepted_cons {P : Member → Prop} : (∀ u ∈ r.accepted (m :: members), P u) ↔
      (r.newer m = true → P m) ∧ ∀ u ∈ (r.replaced m).accepted members, P u := by
  rw [accepted]
  split
  · rename_i hnew
    rw [List.forall_mem_cons]
    exact and_congr_left fun _ => ⟨fun h _ => h, fun h => h hnew⟩
  · rename_i hold
    exact (and_iff_right fun hnew => absurd hnew hold).symm

def Keyed (r : MemberRegistry) : Prop := ∀ id m, r.get id = some m → m.nodeId = id

theorem Keyed.insert (h : r.Keyed) (m : Member) : Keyed (insert r m.nodeId m) := by
  intro id found hget
  rw [get_insert] at hget
  split at hget
  · rename_i heq
    cases hget
    exact heq.symm
  · exact h id found hget

def epochOf (r : MemberRegistry) (nodeId : String) : Option Nat := (r.get nodeId).map fun m => m.epoch

def listing (r : MemberRegistry) : List (String × Nat) := r.entries.map fun e => (e.2.nodeId, e.2.epoch)

theorem Keyed.epochOf_eq (h : r.Keyed) {nodeId : String}
    {epoch : Nat} : r.epochOf nodeId = some epoch ↔ (nodeId, epoch) ∈ r.listing := by
  rw [epochOf, listing, Option.map_eq_some_iff, List.mem_map]
  constructor
  · rintro ⟨m, hget, rfl⟩
    refine ⟨(nodeId, m), get_eq_some.mp hget, ?_⟩
    rw [h nodeId m hget]
  · rintro ⟨⟨key, m⟩, hentry, heq⟩
    cases heq
    have hget := get_eq_some.mpr hentry
    rw [h key m hget]
    exact ⟨m, hget, rfl⟩

end MemberRegistry

def Member.owns (m : Member) : Bool := m.phase ∈ ringPhases

def Member.positions (m : Member) : List VNode := m.vnodes.toOption.getD []

def Member.seats (m : Member) : List VNode := if m.owns then m.positions else []

structure Member.Numbered (m : Member) : Prop where
  tokens : m.owns = true → ∃ vs, m.vnodes = .ok vs ∧ ∀ v ∈ vs, 0 ≤ v.token ∧ v.token < 256 ^ 16

instance (m : Member) : Decidable m.Numbered :=
  decidable_of_iff (m.owns = true → ∃ vs ∈ m.vnodes.toOption, ∀ v ∈ vs, 0 ≤ v.token ∧ v.token < 256 ^ 16)
    ⟨fun h => ⟨fun howns => (h howns).imp fun _ => And.imp_left mem_toOption.mp⟩,
      fun h howns => (h.tokens howns).imp fun _ => And.imp_left mem_toOption.mpr⟩

def TopologyCall.Numbered (t : TopologyManager) (call : TopologyCall) : Prop :=
  ∀ m ∈ t.registry.accepted call.records, m.Numbered

instance (t : TopologyManager) (call : TopologyCall) : Decidable (TopologyCall.Numbered t call) :=
  inferInstanceAs (Decidable (∀ m ∈ t.registry.accepted call.records, m.Numbered))

theorem Member.nodeId_of_mem_positions {m : Member} {v : VNode} (hv : v ∈ m.positions) : v.nodeId = m.nodeId := by
  unfold positions at hv
  cases hvs : m.vnodes with
  | error e => simp [hvs, Except.toOption] at hv
  | ok vs =>
    rw [hvs] at hv
    exact nodeId_of_mem_vnodes hvs hv

theorem Member.mem_seats {m : Member} {v : VNode} : v ∈ m.seats ↔ m.owns = true ∧ v ∈ m.positions := by
  unfold seats
  split
  · rename_i howns
    exact (and_iff_right howns).symm
  · rename_i hidle
    exact ⟨nofun, fun h => absurd h.1 hidle⟩

def MemberRegistry.positions (r : MemberRegistry) : List VNode :=
  ((r.entries.map Prod.snd).filter Member.owns).flatMap Member.positions

def MemberRegistry.ring (r : MemberRegistry) : Ring := .make r.positions

namespace TopologyManager

theorem derivedRing_cases (previous : Ring) (m : Member) :
    (∃ e, m.owns = true ∧ m.vnodes = .error e ∧ derivedRing previous m = .error e) ∨
      (m.owns = true → m.vnodes = .ok m.positions) ∧ ∃ ring, derivedRing previous m = .ok ring ∧
          ring.vnodes = mergeSorted (previous.dropNodes [m.nodeId]).vnodes
            (m.seats.insertionSort VNode.Before) := by
  unfold derivedRing seats
  by_cases howns : m.owns = true
  · have hphase : m.phase ∈ ringPhases := of_decide_eq_true howns
    rw [if_pos hphase, if_pos howns]
    cases hvs : m.vnodes with
    | error e => exact .inl ⟨e, howns, rfl, rfl⟩
    | ok vs =>
      have hpositions : m.positions = vs := by
        rw [positions, hvs]
        rfl
      rw [hpositions]
      exact .inr ⟨fun _ => rfl, _, rfl, addVnodes_eq _ _⟩
  · have hphase : m.phase ∉ ringPhases := fun hin => howns (decide_eq_true hin)
    rw [if_neg hphase, if_neg howns]
    refine .inr ⟨fun h => absurd h howns, _, rfl, ?_⟩
    rw [mergeSorted_eq_merge]
    exact (List.merge_right ..).symm

theorem derivedRing_perm {previous ring : Ring} {m : Member} (h : derivedRing previous m = .ok ring) :
    ring.vnodes.Perm ((previous.dropNodes [m.nodeId]).vnodes ++ m.seats) := by
  rcases derivedRing_cases previous m with ⟨e, _, _, he⟩ | ⟨_, ring', hring, hvnodes⟩
  · cases he.symm.trans h
  · cases hring.symm.trans h
    rw [hvnodes]
    exact (mergeSorted_perm _ _).trans
      (List.Perm.append_left _ (List.perm_insertionSort VNode.Before _))

theorem derivedRing_ok {previous ring : Ring} {m : Member} {vs : List VNode}
    (hphase : m.phase ∈ ringPhases) (hvs : m.vnodes = .ok vs) (hdistinct : (ring.vnodes.map VNode.token).Nodup)
    (hperm : ((previous.dropNodes [m.nodeId]).vnodes ++ vs).Perm ring.vnodes) :
    derivedRing previous m = .ok ring := by
  rw [derivedRing, if_pos hphase, hvs]
  exact congrArg Except.ok (eq_of_perm ((addVnodes_perm _ _).trans hperm) hdistinct)

end TopologyManager

theorem Ring.Encodable.derivable_iff {previous : Ring} (h : previous.Encodable) {m : Member} :
    (∃ ring, TopologyManager.derivedRing previous m = .ok ring ∧ ring.Encodable) ↔ m.Numbered := by
  constructor
  · rintro ⟨ring, hring, hencodable⟩
    rcases TopologyManager.derivedRing_cases previous m with ⟨e, _, _, he⟩ | ⟨hvnodes, _⟩
    · cases he.symm.trans hring
    · refine ⟨fun howns => ⟨_, hvnodes howns, fun v hv => hencodable v ?_⟩⟩
      refine (TopologyManager.derivedRing_perm hring).mem_iff.mpr (List.mem_append_right _ ?_)
      rwa [seats, if_pos howns]
  · intro hm
    rcases TopologyManager.derivedRing_cases previous m with ⟨e, howns, he, _⟩ | ⟨hvnodes, ring, hring, _⟩
    · obtain ⟨vs, hvs, _⟩ := hm.tokens howns
      cases he.symm.trans hvs
    · refine ⟨ring, hring, fun v hv => ?_⟩
      rcases List.mem_append.mp ((TopologyManager.derivedRing_perm hring).mem_iff.mp hv) with hold | hnew
      · exact h v (List.mem_filter.mp hold).1
      · obtain ⟨howns, hv⟩ := mem_seats.mp hnew
        obtain ⟨vs, hvs, hrange⟩ := hm.tokens howns
        cases hvs.symm.trans (hvnodes howns)
        exact hrange v hv

section Steps

variable [Digests] {t : TopologyManager}

structure Serials (t : TopologyManager) (ring : Ring) (old : Option Member) (new : Member)
    (flag : Bool) : Prop where
  found : ∃ serial previous, ring.serial = .ok serial ∧ t.ring.serial = .ok previous ∧
    flag = if serial = previous then
      (old.map fun m => m.phase).getD .idle ≠ new.phase && new.phase ∈ ringPhases else true

namespace TopologyManager

theorem updateRing_cases (old : Option Member) (new : Member) (t : TopologyManager) :
    (∃ e, derivedRing t.ring new = .error e ∧ updateRing old new t = (.error e, t)) ∨
    ∃ ring, derivedRing t.ring new = .ok ring ∧ ((∃ e, (ring.serial = .error e ∨ t.ring.serial = .error e) ∧
        updateRing old new t = (.error e, { t with ring := ring })) ∨ ∃ flag, Serials t ring old new flag ∧
        updateRing old new t = (.ok flag, { t with ring := ring })) := by
  unfold updateRing
  rw [bind_ok (rfl : get t = (.ok t, t))]
  obtain ⟨derived, hring⟩ : ∃ derived, derivedRing t.ring new = derived := ⟨_, rfl⟩
  cases derived with
  | error e => exact .inl ⟨e, hring, bind_error (by rw [hring]; rfl)⟩
  | ok ring =>
    refine .inr ⟨ring, hring, ?_⟩
    rw [bind_ok (show lift _ t = (.ok ring, t) by rw [hring]; rfl),
      bind_ok (rfl : modify _ t = (.ok (), { t with ring := ring }))]
    obtain ⟨found, hserial⟩ : ∃ found, ring.serial = found := ⟨_, rfl⟩
    cases found with
    | error e => exact .inl ⟨e, .inl hserial, bind_error (by rw [hserial]; rfl)⟩
    | ok serial =>
      rw [bind_ok (show lift ring.serial _ = (.ok serial, _) by rw [hserial]; rfl)]
      obtain ⟨found, hprevious⟩ : ∃ found, t.ring.serial = found := ⟨_, rfl⟩
      cases found with
      | error e => exact .inl ⟨e, .inr hprevious, bind_error (by rw [hprevious]; rfl)⟩
      | ok previous =>
        refine .inr ⟨_, ⟨serial, previous, hserial, hprevious, rfl⟩, ?_⟩
        rw [bind_ok (show lift t.ring.serial _ = (.ok previous, _) by rw [hprevious]; rfl)]
        split
        · rfl
        · rfl

theorem apply_cases (m : Member) (t : TopologyManager) :
    (t.registry.Newer m ∧ apply m t = updateRing (t.registry.get m.nodeId) m
        { t with registry := t.registry.insert m.nodeId m, fingerprint := none }) ∨
    (∃ u, t.registry.get m.nodeId = some u ∧ m.epoch ≤ u.epoch) ∧
      apply m t = (.ok false, t) := by
  unfold apply
  rw [bind_ok (rfl : get t = (.ok t, t))]
  rcases upsert_cases t.registry m with ⟨hupsert, hnew⟩ | ⟨hupsert, hold⟩
  · rw [hupsert]
    exact .inl ⟨⟨hnew⟩, rfl⟩
  · rw [hupsert]
    exact .inr ⟨hold, rfl⟩

def nextRing (t : TopologyManager) (m : Member) : Ring := (derivedRing t.ring m).toOption.getD t.ring

theorem apply_state (m : Member) (t : TopologyManager) : (t.registry.Newer m ∧ (apply m t).2 =
      { t with registry := t.registry.insert m.nodeId m, fingerprint := none, ring := t.nextRing m }) ∨
    (∃ u, t.registry.get m.nodeId = some u ∧ m.epoch ≤ u.epoch) ∧
      (apply m t).2 = t := by
  rcases apply_cases m t with ⟨hnew, hrun⟩ | ⟨hold, hrun⟩
  · refine .inl ⟨hnew, ?_⟩
    rw [hrun, nextRing]
    rcases updateRing_cases (t.registry.get m.nodeId) m
        { t with registry := t.registry.insert m.nodeId m, fingerprint := none } with
      ⟨e, hring, hupdate⟩ | ⟨ring, hring, ⟨e, _, hupdate⟩ | ⟨flag, _, hupdate⟩⟩
    · rw [hupdate, hring]
      rfl
    · rw [hupdate, hring]
      rfl
    · rw [hupdate, hring]
      rfl
  · exact .inr ⟨hold, by rw [hrun]⟩

theorem applyMember_ok {m : Member} {ring : Ring} {flag : Bool}
    (hnew : t.registry.Newer m) (hring : derivedRing t.ring m = .ok ring)
    (hserials : Serials t ring (t.registry.get m.nodeId) m flag) : applyMember m t = (.ok flag,
      ⟨t.registry.insert m.nodeId m, ring, if flag then t.generation + 1 else t.generation, none⟩) := by
  have happly : apply m t =
      (.ok flag, ⟨t.registry.insert m.nodeId m, ring, t.generation, none⟩) := by
    obtain ⟨serial, previous, hserial, hprevious, rfl⟩ := hserials.found
    rcases apply_cases m t with ⟨_, hrun⟩ | ⟨⟨u, hu, hle⟩, _⟩
    · rw [hrun, updateRing, bind_ok (rfl : get _ = (.ok _, _)),
        bind_ok (show lift _ _ = (.ok ring, _) by rw [hring]; rfl),
        bind_ok (rfl : modify _ _ = (.ok (), _)),
        bind_ok (show lift ring.serial _ = (.ok serial, _) by rw [hserial]; rfl),
        bind_ok (show lift t.ring.serial _ = (.ok previous, _) by rw [hprevious]; rfl)]
      split
      · rfl
      · rfl
    · exact absurd (hnew.above u hu) (Nat.not_lt.mpr hle)
  rw [applyMember, bind_ok happly]
  cases flag with
  | false => rfl
  | true => rfl

theorem apply_generation (m : Member) (t : TopologyManager) : (apply m t).2.generation = t.generation := by
  rcases apply_state m t with ⟨_, hstate⟩ | ⟨_, hstate⟩
  · rw [hstate]
  · rw [hstate]

theorem apply_registry (m : Member) (t : TopologyManager) : (apply m t).2.registry = t.registry.replaced m := by
  unfold MemberRegistry.replaced
  rcases apply_state m t with ⟨hnew, hstate⟩ | ⟨⟨u, hget, hle⟩, hstate⟩
  · rw [hstate, if_pos hnew.newer]
  · rw [hstate, if_neg (by simp [MemberRegistry.newer_eq_false hget hle])]

def Separated (t : TopologyManager) (m : Member) : Prop :=
  ∀ serial, (t.nextRing m).serial = .ok serial → t.ring.serial = .ok serial → t.nextRing m = t.ring

def applied (t : TopologyManager) (m : Member) : TopologyManager := (apply m t).2

structure Invariant (I : TopologyManager → Prop) : Prop where
  register : ∀ t m, t.registry.Newer m → I t →
    I { t with registry := t.registry.insert m.nodeId m, fingerprint := none, ring := t.nextRing m }
  bump : ∀ t n, I t → I { t with generation := n }
  cache : ∀ t found, computeFingerprint t.registry = .ok found → I t →
    I { t with fingerprint := some found }

section

variable {I : TopologyManager → Prop} (hI : Invariant I)

include hI

theorem Invariant.apply (m : Member) (h : I t) : I (TopologyManager.apply m t).2 := by
  rcases TopologyManager.apply_state m t with ⟨hnew, hstate⟩ | ⟨_, hstate⟩
  · rw [hstate]
    exact hI.register t m hnew h
  · rw [hstate]
    exact h

theorem Invariant.collect (members : List Member) (h : I t) : I (collect members TopologyManager.apply t).2 := by
  induction members generalizing t with
  | nil => exact h
  | cons m members ih =>
    have happly := hI.apply m h
    rcases hrun : TopologyManager.apply m t with ⟨result, t'⟩
    rw [hrun] at happly
    cases result with
    | error e =>
      rw [Prog.collect, bind_error hrun]
      exact happly
    | ok flag =>
      have hrest := ih happly
      rcases hcollect : collect members TopologyManager.apply t' with ⟨result, t''⟩
      rw [hcollect] at hrest
      rw [Prog.collect, bind_ok hrun]
      cases result with
      | error e =>
        rw [bind_error hcollect]
        exact hrest
      | ok flags =>
        rw [bind_ok hcollect]
        exact hrest

theorem Invariant.notify (c : Prop) [Decidable c] (h : I t) :
    ∃ t', whenever c TopologyManager.notify t = (.ok (), t') ∧ I t' := by
  unfold whenever
  split
  · exact ⟨_, rfl, hI.bump t _ h⟩
  · exact ⟨_, rfl, h⟩

theorem Invariant.applyMember (m : Member) (h : I t) : I (TopologyManager.applyMember m t).2 := by
  have happly := hI.apply m h
  unfold TopologyManager.applyMember
  rcases hrun : TopologyManager.apply m t with ⟨result, t'⟩
  rw [hrun] at happly
  cases result with
  | error e =>
    rw [bind_error hrun]
    exact happly
  | ok flag =>
    obtain ⟨t'', hnotify, h''⟩ := hI.notify (flag = true) happly
    rw [bind_ok hrun, bind_ok hnotify]
    exact h''

theorem Invariant.mergeRegistry (members : List Member) (h : I t) :
    I (TopologyManager.mergeRegistry members t).2 := by
  have hcollect := hI.collect members h
  unfold TopologyManager.mergeRegistry
  rcases hrun : Prog.collect members TopologyManager.apply t with ⟨result, t'⟩
  rw [hrun] at hcollect
  cases result with
  | error e =>
    rw [bind_error hrun]
    exact hcollect
  | ok flags =>
    obtain ⟨t'', hnotify, h''⟩ := hI.notify (flags.count true ≠ 0) hcollect
    rw [bind_ok hrun, bind_ok hnotify]
    exact h''

theorem Invariant.memberFingerprint (h : I t) : I (TopologyManager.memberFingerprint t).2 := by
  unfold TopologyManager.memberFingerprint
  rw [bind_ok (rfl : get t = (.ok t, t))]
  cases hcache : t.fingerprint with
  | some found => exact h
  | none =>
    cases hcompute : computeFingerprint t.registry with
    | error e => exact h
    | ok found => exact hI.cache t found hcompute h

theorem Invariant.run (call : TopologyCall) (h : I t) : I (call.run t) := by
  cases call with
  | applyMember m => exact hI.applyMember m h
  | mergeRegistry members => exact hI.mergeRegistry members h
  | memberFingerprint => exact hI.memberFingerprint h

theorem Invariant.runAll (hstart : I .start) (calls : List TopologyCall) : I (TopologyCall.runAll calls) := by
  have hfold (t : TopologyManager) (h : I t) : I (calls.foldl TopologyCall.run t) := by
    induction calls generalizing t with
    | nil => exact h
    | cons call calls ih => exact ih _ (hI.run call h)
  exact hfold .start hstart

end

end TopologyManager

theorem keyed_invariant : TopologyManager.Invariant fun t => t.registry.Keyed where
  register _ m _ h := h.insert m
  bump _ _ h := h
  cache _ _ _ h := h

theorem keyed_runAll (calls : List TopologyCall) : (TopologyCall.runAll calls).registry.Keyed :=
  keyed_invariant.runAll nofun calls

def MemberRegistry.Houses (r : MemberRegistry) (ring : Ring) : Prop :=
  ∀ v ∈ ring.vnodes, ∃ m, r.get v.nodeId = some m ∧ m.phase ∈ ringPhases

omit [Digests] in
theorem TopologyManager.nextRing_vnodes {m : Member} {v : VNode} (hv : v ∈ (t.nextRing m).vnodes) :
    (v.nodeId = m.nodeId ∧ m.phase ∈ ringPhases) ∨ (v.nodeId ≠ m.nodeId ∧ v ∈ t.ring.vnodes) := by
  unfold nextRing at hv
  rcases derivedRing_cases t.ring m with ⟨e, howns, _, herror⟩ | ⟨_, ring, hring, _⟩
  · rw [herror] at hv
    by_cases hid : v.nodeId = m.nodeId
    · exact .inl ⟨hid, of_decide_eq_true howns⟩
    · exact .inr ⟨hid, hv⟩
  · rw [hring] at hv
    rcases List.mem_append.mp ((derivedRing_perm hring).mem_iff.mp hv) with hold | hnew
    · obtain ⟨hold, hid⟩ := List.mem_filter.mp hold
      exact .inr ⟨by simpa using hid, hold⟩
    · exact .inl ⟨nodeId_of_mem_positions (mem_seats.mp hnew).2, of_decide_eq_true (mem_seats.mp hnew).1⟩

theorem housed_invariant : TopologyManager.Invariant fun t => t.registry.Houses t.ring where
  register t m _ h v hv := by
    rcases TopologyManager.nextRing_vnodes hv with ⟨hid, hphase⟩ | ⟨hid, hold⟩
    · refine ⟨m, ?_, hphase⟩
      rw [hid]
      exact get_insert_self ..
    · obtain ⟨u, hu, hphase⟩ := h v hold
      refine ⟨u, ?_, hphase⟩
      rw [get_insert, if_neg hid]
      exact hu
  bump _ _ h := h
  cache _ _ _ h := h

theorem housed_runAll (calls : List TopologyCall) :
    (TopologyCall.runAll calls).registry.Houses (TopologyCall.runAll calls).ring :=
  housed_invariant.runAll nofun calls

def TopologyManager.Cached (t : TopologyManager) : Prop :=
  ∀ found ∈ t.fingerprint, TopologyManager.computeFingerprint t.registry = .ok found

theorem cached_invariant : TopologyManager.Invariant TopologyManager.Cached where
  register _ _ _ _ := nofun
  bump _ _ h := h
  cache := by
    rintro t found hcompute _ _ ⟨⟩
    exact hcompute

theorem TopologyManager.Cached.memberFingerprint (h : t.Cached) :
    (TopologyManager.memberFingerprint t).1 = TopologyManager.computeFingerprint t.registry := by
  unfold TopologyManager.memberFingerprint
  rw [bind_ok (rfl : get t = (.ok t, t))]
  cases hcache : t.fingerprint with
  | some found => exact (h found hcache).symm
  | none =>
    cases hcompute : TopologyManager.computeFingerprint t.registry with
    | error e => rfl
    | ok found => rfl

end Steps

namespace Sample

def transcript (b : Bytes) : String := String.ofList (b.map fun x => Char.ofNat x.toNat)

scoped instance digests : Digests := ⟨transcript, transcript⟩

def first : Member := ⟨"a", "a:1", 1, .joining, ["0a"]⟩

def second : Member := ⟨"a", "a:1", 2, .ready, ["0b"]⟩

def other : Member := ⟨"b", "b:1", 1, .ready, ["05", "0c"]⟩

end Sample

end Tourillon
