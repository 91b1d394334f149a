import Tourillon.Store.Clock
import Tourillon.Store.Effect
import Tourillon.Store.ReadQuorum
import Tourillon.Store.Wire

namespace Tourillon

open Endian Exceptional Effect List

variable {r : Record} {clock clock' : HLCClock} {nowMs : Int} {addr : Address} {value : Bytes} {pid : Nat}
  {tombstone : Bool}

structure Site where
  groups : Groups
  clock : HLCClock
  wall : Int

structure Fleet where
  sites : String → Site
  wire : List Message
  issued : List Record

structure Deployment where
  partitioner : Partitioner
  policy : String → RetentionPolicy

def writeRecord (clock : HLCClock) (nowMs : Int) (addr : Address) (value : Bytes) (pid : Nat)
    (tombstone : Bool) (quorumWrite : Nat) : Except PyError Record × HLCClock :=
  let (ts, clock) := clock.tick nowMs
  (do
    let value ← Value.make value quorumWrite
    return ⟨⟨⟨pid, addr, ts⟩, ⟨if tombstone then .tombstone else .live, {}⟩⟩, value⟩, clock)

inductive FleetAction where
  | wall (node : String) (nowMs : Int)
  | stamp (node : String) (addr : Address) (value : Bytes) (pid : Nat) (tombstone : Bool)
      (quorum : Int)
  | restart (node : String)
  | relay (message : Nat) (codec : Codec)
  | forward (node : String) (key : Key) (codec : Codec)
  | forwardLatest (node : String) (addr : PartitionAddress) (codec : Codec)
  | write (node : String) (message : Nat) (faults : Faults)
  | oblige (node : String) (message : Nat) (targets : List String) (faults : Faults)
  | apply (node : String) (pid : Nat) (messages : List Nat) (faults : Faults)
  | collect (node : String) (group : Nat) (keys : List Key) (dryRun : Bool) (faults : Faults)
  | forget (node : String) (group : Nat) (obligations : List ObligationKey) (faults : Faults)

namespace Fleet

section

variable (f : Fleet) (node : String)

def storage (group : Nat) : GroupStorage := (f.sites node).groups group

def withSite (site : Site) : Fleet := { f with sites := fun n => if n = node then site else f.sites n }

def withStorage (group : Nat) (g : GroupStorage) : Fleet :=
  f.withSite node { f.sites node with
    groups := fun i => if i = group then g else (f.sites node).groups i }

def withClock (clock : HLCClock) : Fleet := f.withSite node { f.sites node with clock := clock }

end

def received (f : Fleet) (message : Nat) : Option Record := f.wire[message]?.bind fun m => m.decode.toOption

def send (f : Fleet) (found : Except PyError (Option Record)) (codec : Codec) : Fleet :=
  match found with
  | .ok (some r) =>
    match Message.encode r codec with
    | .ok m => { f with wire := f.wire ++ [m] }
    | .error _ => f
  | _ => f

def register (f : Fleet) (node : String) : Except PyError Record × HLCClock → Fleet
  | (.ok r, clock) => { f.withClock node clock with wire := f.wire ++ [.record r], issued := f.issued ++ [r] }
  | (.error _, clock) => f.withClock node clock

def restored (clock : HLCClock) (latest : HLCTimestamp) : HLCClock :=
  HLCClock.restore ⟨clock.nodeId, 0, 0, clock.size⟩ latest.wallMs latest.counter

variable [Blake2b] (d : Deployment)

def step (f : Fleet) : FleetAction → Fleet
  | .wall node nowMs => f.withSite node { f.sites node with wall := nowMs }
  | .stamp node addr value pid tombstone quorum =>
    match validateQuorum "write" quorum with
    | .ok _ => f.register node (writeRecord (f.sites node).clock (f.sites node).wall addr value pid
        tombstone quorum.toNat)
    | .error _ => f
  | .restart node =>
    match (f.sites node).groups.latestHlc d.partitioner.totalGroups with
    | .ok latest => f.withClock node (restored (f.sites node).clock latest)
    | .error _ => f
  | .relay message codec => f.send (.ok (f.received message)) codec
  | .forward node key codec => f.send ((f.storage node (d.partitioner.groupFor key.pid)).read key) codec
  | .forwardLatest node addr codec =>
    f.send ((f.storage node (d.partitioner.groupFor addr.pid)).newest addr) codec
  | .write node message faults =>
    match f.received message with
    | some r =>
      f.withStorage node (d.partitioner.groupFor r.key.pid)
        (localWrite faults r (f.storage node (d.partitioner.groupFor r.key.pid))).2
    | none => f
  | .oblige node message targets faults =>
    match f.received message with
    | some r =>
      f.withStorage node (d.partitioner.groupFor r.key.pid)
        (oblige faults node r targets (f.storage node (d.partitioner.groupFor r.key.pid))).2
    | none => f
  | .apply node pid messages faults =>
    let records := messages.filterMap f.received
    if records.all fun r => r.key.pid = pid then
      f.withStorage node (d.partitioner.groupFor pid)
        (applyRecords (d.policy node) faults records (f.storage node (d.partitioner.groupFor pid))).2
    else f
  | .collect node group keys dryRun faults =>
    f.withStorage node group
      (collectBatch (d.policy node) faults keys dryRun (f.storage node group)).2
  | .forget node group obligations faults =>
    f.withStorage node group (forgetObligations faults obligations (f.storage node group)).2

def run (f : Fleet) (acts : List FleetAction) : Fleet := acts.foldl (step d) f

end Fleet

def FleetAction.delivers (f : Fleet) (node : String) : FleetAction → List Record
  | .write n message _ => if n = node then (f.received message).toList else []
  | .oblige n message _ _ => if n = node then (f.received message).toList else []
  | .apply n _ messages _ => if n = node then messages.filterMap f.received else []
  | _ => []

structure Fleet.Initial (f : Fleet) : Prop where
  groups : ∀ node group, f.storage node group = .empty
  wire : f.wire = []
  issued : f.issued = []

namespace Fleet

section

variable (f : Fleet) (node n : String)

theorem storage_withStorage (group i : Nat) (g : GroupStorage) : (f.withStorage node group g).storage n i =
      if n = node ∧ i = group then g else f.storage n i := by
  unfold withStorage withSite storage
  by_cases hn : n = node
  · subst hn
    simp
  · simp [hn]

theorem storage_withClock (clock : HLCClock) (i : Nat) : (f.withClock node clock).storage n i = f.storage n i := by
  unfold withClock withSite storage
  dsimp only
  split
  · rename_i hn
    rw [hn]
  · rfl

theorem storage_withWall (nowMs : Int) (i : Nat) :
    (f.withSite node { f.sites node with wall := nowMs }).storage n i = f.storage n i := by
  unfold withSite storage
  dsimp only
  split
  · rename_i hn
    rw [hn]
  · rfl

end

theorem send_cases (f : Fleet) (found : Except PyError (Option Record)) (codec : Codec) :
    f.send found codec = f ∨ ∃ r m, found = .ok (some r) ∧ Message.encode r codec = .ok m ∧
      f.send found codec = { f with wire := f.wire ++ [m] } := by
  unfold send
  split
  · rename_i r
    split
    · rename_i m hm
      exact .inr ⟨r, m, rfl, hm, rfl⟩
    · exact .inl rfl
  · exact .inl rfl

end Fleet

theorem writeRecord_ok {quorum : Nat}
    (h : writeRecord clock nowMs addr value pid tombstone quorum = (.ok r, clock')) :
    clock' = clock.advance nowMs ∧ r.key = ⟨pid, addr, (clock.advance nowMs).snapshot⟩ ∧
      r.value.data = value ∧ r.value.quorumWrite = quorum ∧
      r.tag = ⟨if tombstone then .tombstone else .live, {}⟩ := by
  simp only [writeRecord, HLCClock.tick, Prod.mk.injEq, bind_eq_ok, pure_eq_ok] at h
  obtain ⟨⟨v, hv, rfl⟩, rfl⟩ := h
  unfold Value.make at hv
  split at hv
  · cases hv
    exact ⟨rfl, rfl, rfl, rfl, rfl⟩
  · cases hv

theorem storable_writeRecord {quorum : Int} {op : String} (hq : validateQuorum op quorum = .ok ())
    (h : writeRecord clock nowMs addr value pid tombstone quorum.toNat = (.ok r, clock')) : Storable r := by
  obtain ⟨_, _, _, hquorum, htag⟩ := writeRecord_ok h
  have hbound : quorum ≤ 255 := by
    unfold validateQuorum at hq
    split at hq
    · rename_i hin
      exact hin.2
    · cases hq
  refine ⟨?_, ?_, ?_⟩
  · rw [Record.owned, htag]
    cases tombstone <;> rfl
  · rw [htag]
    exact fun _ => rfl
  · rw [hquorum]
    omega

theorem read_of_newest {g : GroupStorage} (hg : Sound g) {addr : PartitionAddress}
    (h : g.newest addr = .ok (some r)) : g.read r.key = .ok (some r) := by
  obtain ⟨⟨hk, _⟩, _, hrecord⟩ := of_newest hg h
  exact GroupStorage.read_eq_ok.mpr ⟨hk, hrecord⟩

structure Consistent [Blake2b] (f : Fleet) : Prop where
  storable : ∀ r ∈ f.issued, Storable r
  wire : ∀ m ∈ f.wire, ∀ r, m.decode = .ok r → r ∈ f.issued
  clean : ∀ node group, Clean (f.storage node group)
  ledger : ∀ node group, Ledger node f.issued (f.storage node group)

section Steps

variable [Blake2b] {d : Deployment} {f f' : Fleet} {delivered : String → List Record} {node : String}
  {group : Nat}

structure Advances (d : Deployment) (delivered : String → List Record) (f f' : Fleet) : Prop where
  consistent : Consistent f'
  issued : f.issued <+: f'.issued
  effect : ∀ node group, Effect (d.policy node) node (delivered node) (f.storage node group)
    (f'.storage node group)

section

variable (h : Consistent f)

include h

namespace Consistent

theorem received {message : Nat} {r : Record} (hr : f.received message = some r) : r ∈ f.issued ∧ Storable r := by
  obtain ⟨m, hm, hdecode⟩ := Option.bind_eq_some_iff.mp hr
  have hin := h.wire m (mem_of_getElem? hm) r (mem_toOption.mp hdecode)
  exact ⟨hin, h.storable r hin⟩

theorem stays (hs : ∀ node group, f'.storage node group = f.storage node group)
    (hwire : f'.wire = f.wire) (hissued : f'.issued = f.issued) : Advances d delivered f f' := by
  refine ⟨⟨?_, ?_, ?_, ?_⟩, ?_, ?_⟩
  · rw [hissued]
    exact h.storable
  · rw [hissued, hwire]
    exact h.wire
  · intro node group
    rw [hs]
    exact h.clean node group
  · intro node group
    rw [hs, hissued]
    exact h.ledger node group
  · rw [hissued]
  · intro node group
    rw [hs]
    exact refl _ _ _ _

theorem sends {found : Except PyError (Option Record)}
    (hfound : ∀ r, found = .ok (some r) → r ∈ f.issued) (codec : Codec) :
    Advances d delivered f (f.send found codec) := by
  rcases f.send_cases found codec with hsame | ⟨r, m, hr, hm, hsend⟩
  · rw [hsame]
    exact h.stays (fun _ _ => rfl) rfl rfl
  · rw [hsend]
    have hin := hfound r hr
    refine ⟨⟨h.storable, ?_, h.clean, h.ledger⟩, prefix_refl _, fun node group => refl _ _ _ _⟩
    intro m' hm' r' hr'
    rcases mem_append.mp hm' with hold | hnew
    · exact h.wire m' hold r' hr'
    · rw [mem_singleton.mp hnew, Message.decode_encode (h.storable r hin).readable hm] at hr'
      cases hr'
      exact hin

theorem transacts {g : GroupStorage} (hclean : Clean g) (hdelivered : ∀ n, ∀ r ∈ delivered n, r ∈ f.issued)
    (heffect : Effect (d.policy node) node (delivered node) (f.storage node group) g) :
    Advances d delivered f (f.withStorage node group g) := by
  have heffects (n : String) (i : Nat) : Effect (d.policy n) n (delivered n) (f.storage n i)
      ((f.withStorage node group g).storage n i) := by
    rw [Fleet.storage_withStorage]
    split
    · rename_i hsame
      rw [hsame.1, hsame.2]
      exact heffect
    · exact refl _ _ _ _
  refine ⟨⟨h.storable, h.wire, ?_, ?_⟩, prefix_refl _, heffects⟩
  · intro n i
    rw [Fleet.storage_withStorage]
    split
    · exact hclean
    · exact h.clean n i
  · intro n i
    exact ((heffects n i).mono (hdelivered n)).ledger (h.ledger n i)

theorem registers {r : Record} (hr : Storable r) (clock : HLCClock) :
    Advances d delivered f (f.register node (.ok r, clock)) := by
  have hsub : ∀ q ∈ f.issued, q ∈ f.issued ++ [r] := fun q hq => mem_append_left _ hq
  refine ⟨⟨?_, ?_, ?_, ?_⟩, prefix_append _ _, ?_⟩
  · intro q hq
    rcases mem_append.mp hq with hold | hnew
    · exact h.storable q hold
    · rwa [mem_singleton.mp hnew]
  · intro m hm q hq
    rcases mem_append.mp hm with hold | hnew
    · exact hsub q (h.wire m hold q hq)
    · rw [mem_singleton.mp hnew] at hq
      cases hq
      exact mem_append_right _ (mem_singleton.mpr rfl)
  · intro n i
    exact (f.storage_withClock node n clock i) ▸ h.clean n i
  · intro n i
    exact (f.storage_withClock node n clock i) ▸ (h.ledger n i).mono hsub
  · intro n i
    exact (f.storage_withClock node n clock i) ▸ refl _ _ _ _

theorem delivers (a : FleetAction) (node : String) : ∀ r ∈ a.delivers f node, r ∈ f.issued ∧ Storable r := by
  intro r hr
  cases a with
  | write n message faults =>
    dsimp only [FleetAction.delivers] at hr
    split at hr
    · exact h.received (Option.mem_toList.mp hr)
    · cases hr
  | oblige n message targets faults =>
    dsimp only [FleetAction.delivers] at hr
    split at hr
    · exact h.received (Option.mem_toList.mp hr)
    · cases hr
  | apply n pid messages faults =>
    dsimp only [FleetAction.delivers] at hr
    split at hr
    · obtain ⟨message, _, hmessage⟩ := mem_filterMap.mp hr
      exact h.received hmessage
    · cases hr
  | _ => cases hr

theorem step (a : FleetAction) : Advances d (fun node => a.delivers f node) f (f.step d a) := by
  have hdelivered := h.delivers a
  cases a with
  | wall node nowMs => exact h.stays (fun n i => f.storage_withWall node n nowMs i) rfl rfl
  | stamp node addr value pid tombstone quorum =>
    unfold Fleet.step
    dsimp only
    split
    · rename_i hquorum
      cases hwrite : writeRecord (f.sites node).clock (f.sites node).wall addr value pid tombstone
          quorum.toNat with
      | mk found clock =>
        cases found with
        | ok r => exact h.registers (storable_writeRecord hquorum hwrite) clock
        | error e => exact h.stays (fun n i => f.storage_withClock node n clock i) rfl rfl
    · exact h.stays (fun _ _ => rfl) rfl rfl
  | restart node =>
    unfold Fleet.step
    dsimp only
    split
    · exact h.stays (fun n i => f.storage_withClock node n _ i) rfl rfl
    · exact h.stays (fun _ _ => rfl) rfl rfl
  | relay message codec =>
    refine h.sends ?_ codec
    intro r hr
    exact (h.received (Except.ok.inj hr)).1
  | forward node key codec =>
    refine h.sends ?_ codec
    intro r hr
    exact ((h.ledger node _).read h.storable hr).1
  | forwardLatest node addr codec =>
    refine h.sends ?_ codec
    intro r hr
    exact ((h.ledger node _).read h.storable (read_of_newest (h.clean node _).toSound hr)).1
  | write node message faults =>
    unfold Fleet.step
    dsimp only
    split
    · rename_i r hr
      obtain ⟨_, hstorable⟩ := h.received hr
      obtain ⟨hclean, hcases⟩ := localWrite_spec faults node (h.clean node _) hstorable
      refine h.transacts hclean (fun n q hq => (hdelivered n q hq).1) ?_
      rcases hcases with ⟨e, herror⟩ | ⟨_, hadded⟩
      · rw [herror]
        exact refl _ _ _ _
      · refine .added [r] [] ?_ hadded
        intro q hq
        simpa [FleetAction.delivers, hr] using hq
    · exact h.stays (fun _ _ => rfl) rfl rfl
  | oblige node message targets faults =>
    unfold Fleet.step
    dsimp only
    split
    · rename_i r hr
      obtain ⟨_, hstorable⟩ := h.received hr
      obtain ⟨hclean, hcases⟩ := oblige_spec faults node targets (h.clean node _) hstorable
      refine h.transacts hclean (fun n q hq => (hdelivered n q hq).1) ?_
      rcases hcases with ⟨e, herror⟩ | ⟨obligations, _, _, hadded⟩
      · rw [herror]
        exact refl _ _ _ _
      · refine .added [r] obligations ?_ hadded
        intro q hq
        simpa [FleetAction.delivers, hr] using hq
    · exact h.stays (fun _ _ => rfl) rfl rfl
  | apply node pid messages faults =>
    unfold Fleet.step
    dsimp only
    split
    · have hrecords : FleetAction.delivers f node (.apply node pid messages faults) =
          messages.filterMap f.received := if_pos rfl
      obtain ⟨hclean, hcases⟩ := applyRecords_spec (d.policy node) faults node (h.clean node _)
        fun r hr => (hdelivered node r (hrecords ▸ hr)).2
      refine h.transacts hclean (fun n q hq => (hdelivered n q hq).1) ?_
      rcases hcases with ⟨e, herror⟩ | ⟨outcomes, selected, _, hsub, hadded⟩
      · rw [herror]
        exact refl _ _ _ _
      · exact .added selected [] (fun r hr => hrecords ▸ hsub r hr) hadded
    · exact h.stays (fun _ _ => rfl) rfl rfl
  | collect node group keys dryRun faults =>
    obtain ⟨hclean, hcases⟩ := collectBatch_spec (d.policy node) faults keys dryRun (h.clean node group)
    refine h.transacts hclean (fun n q hq => (hdelivered n q hq).1) ?_
    rcases hcases with ⟨e, herror⟩ | ⟨result, dropped, _, _, hdropped⟩
    · rw [herror]
      exact refl _ _ _ _
    · exact .dropped dropped hdropped
  | forget node group obligations faults =>
    obtain ⟨hclean, hcases⟩ := forgetObligations_spec faults obligations (h.clean node group)
    refine h.transacts hclean (fun n q hq => (hdelivered n q hq).1) ?_
    rcases hcases with ⟨e, herror⟩ | ⟨_, hforgot⟩
    · rw [herror]
      exact refl _ _ _ _
    · exact .forgot obligations hforgot

end Consistent

end

theorem Fleet.Initial.consistent (h : f.Initial) : Consistent f where
  storable := by
    rw [h.issued]
    nofun
  wire := by
    rw [h.wire]
    nofun
  clean node group := by
    rw [h.groups]
    exact clean_empty
  ledger node group := by
    rw [h.groups]
    refine ⟨recorded_empty _, ?_⟩
    rintro o ⟨_, hsome⟩
    cases hsome

variable (h : Consistent f) (acts : List FleetAction)

include h

theorem Consistent.run : Consistent (f.run d acts) := by
  induction acts generalizing f with
  | nil => exact h
  | cons a acts ih => exact ih (h.step a).consistent

theorem Consistent.issued_prefix : f.issued <+: (f.run d acts).issued := by
  induction acts generalizing f with
  | nil => exact prefix_refl _
  | cons a acts ih => exact (h.step a).issued.trans (ih (h.step a).consistent)

theorem Consistent.reaches {addr : PartitionAddress} {ts : HLCTimestamp}
    (hr : (f.storage node group).Reaches addr ts) : ((f.run d acts).storage node group).Reaches addr ts := by
  induction acts generalizing f with
  | nil => exact hr
  | cons a acts ih =>
    refine ih (h.step a).consistent ?_
    exact ((h.step a).effect node group).reaches (h.clean node group).toHolding hr

end Steps

end Tourillon
