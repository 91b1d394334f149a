import Tourillon.Gossip.Service
import Mathlib.Data.Finset.Lattice.Fold
import Mathlib.Data.Nat.Log
import Mathlib.Order.Lattice.Nat

namespace Tourillon

structure GossipConfig where
  maxFanOut : Nat
  hopLimit : Nat
  fanOutPositive : 1 ≤ maxFanOut
  hopPositive : 1 ≤ hopLimit

structure Acceptance where
  push : Nat
  request : GossipPush
  rest : List Member
  accepted : List Member

structure RelayTask where
  push : Nat
  rest : List Member
  hopLimit : Nat
  excluded : List String

structure GossipProcess where
  manager : TopologyManager
  running : Bool
  hot : List Member
  acceptances : List Acceptance
  relays : List RelayTask
  handed : List (Nat × Member)

structure SentPush where
  target : String
  request : GossipPush
  cause : Option Nat

structure GossipCluster where
  nodes : Finset String
  config : String → GossipConfig
  wired : String → Bool

structure Epidemic where
  processes : String → GossipProcess
  sent : List SentPush

inductive GossipMove where
  | call (c : TopologyCall)
  | engine (running : Bool)
  | announce (m : Member)
  | hot (targets : List String)
  | satisfyWanted (target : String) (wanted : List String)
  | receive (push : Nat)
  | apply (task : Nat)
  | finish (task : Nat)
  | relay (task : Nat) (targets : List String)

def maxPendingRelays : Nat := 64

def eligiblePhases : List MemberPhase := [.ready, .joining, .draining]

def TopologyManager.eligibleMembers (t : TopologyManager) (nodeId : String) (excluded : List String) :
    List Member :=
  (t.registry.entries.map Prod.snd).filter fun m =>
    m.phase ∈ eligiblePhases ∧ m.nodeId ≠ nodeId ∧ m.nodeId ∉ excluded

def GossipConfig.fanOut (config : GossipConfig) (n : Nat) : Nat :=
  min (min (Nat.clog 2 (n + 1) + 1) config.maxFanOut) n

def GossipConfig.samples (config : GossipConfig) (eligible : List Member) (targets : List String) : Bool :=
  targets.Nodup && targets.all (fun target => target ∈ eligible.map Member.nodeId) &&
    targets.length = config.fanOut eligible.length

def sendPushes (sender : String) (m : Member) (hopLimit : Nat) (cause : Option Nat)
    (targets : List String) : List SentPush :=
  targets.map fun target => ⟨target, ⟨sender, hopLimit, [m]⟩, cause⟩

namespace GossipProcess

def boot : GossipProcess := ⟨.start, false, [], [], [], []⟩

def relay (q : GossipProcess) (push : Nat) (members : List Member) (hopLimit : Nat) (sender : String) :
    GossipProcess :=
  if hopLimit < 1 ∨ members = [] ∨ q.running = false then q
  else if q.relays.length ≥ maxPendingRelays then q
  else
    { q with relays := q.relays ++ [⟨push, members, hopLimit, sender :: members.map Member.nodeId⟩] }

def finish (q : GossipProcess) (wired : Bool) (a : Acceptance) : GossipProcess :=
  if a.accepted ≠ [] ∧ a.request.hopLimit > 1 ∧ wired = true then
    relay { q with handed := q.handed ++ a.accepted.map fun m => (a.push, m) } a.push a.accepted
      (a.request.hopLimit - 1) a.request.sender
  else q

def receive (q : GossipProcess) (push : Nat) (data : GossipPush) : GossipProcess :=
  match data.fromDocument with
  | .error _ => q
  | .ok request => { q with acceptances := q.acceptances ++ [⟨push, request, request.members, []⟩] }

def applyNext [Digests] (q : GossipProcess) (task : Nat) (a : Acceptance) : GossipProcess :=
  match a.rest with
  | [] => q
  | m :: rest =>
    match TopologyManager.applyMember m q.manager with
    | (.error _, t) => { q with manager := t, acceptances := q.acceptances.eraseIdx task }
    | (.ok changed, t) =>
      let accepted := if changed then a.accepted ++ [m] else a.accepted
      { q with manager := t, acceptances := q.acceptances.set task { a with rest, accepted } }

end GossipProcess

namespace GossipCluster

variable (c : GossipCluster)

def fanOut : Nat := c.nodes.sup fun p => (c.config p).maxFanOut

def pushHot (p : String) (q : GossipProcess) (targets : List String) : GossipProcess × List SentPush :=
  match q.hot with
  | [] => (q, [])
  | m :: rest =>
    if (c.config p).samples (q.manager.eligibleMembers p []) targets then
      ({ q with hot := rest }, sendPushes p m (c.config p).hopLimit none targets)
    else (q, [])

def pushRelay (p : String) (q : GossipProcess) (task : Nat) (r : RelayTask) (targets : List String) :
    GossipProcess × List SentPush :=
  match r.rest with
  | [] => ({ q with relays := q.relays.eraseIdx task }, [])
  | m :: rest =>
    if (c.config p).samples (q.manager.eligibleMembers p r.excluded) targets then
      ({ q with relays := q.relays.set task { r with rest } }, sendPushes p m r.hopLimit (some r.push) targets)
    else (q, [])

variable [Digests]

def move (p : String) (sent : List SentPush) (q : GossipProcess) : GossipMove → GossipProcess × List SentPush
  | .call call => ({ q with manager := call.run q.manager }, [])
  | .engine running => ({ q with running, relays := if running then q.relays else [] }, [])
  | .announce m => ({ q with hot := q.hot ++ [m] }, [])
  | .hot targets => c.pushHot p q targets
  | .satisfyWanted target wanted =>
    let toSend := (q.manager.registry.entries.map Prod.snd).filter fun m => m.nodeId ∈ wanted
    (q, if toSend = [] then [] else [⟨target, ⟨p, 1, toSend⟩, none⟩])
  | .receive push =>
    match sent[push]? with
    | none => (q, [])
    | some e => (if e.target = p then q.receive push e.request else q, [])
  | .apply task =>
    match q.acceptances[task]? with
    | none => (q, [])
    | some a => (q.applyNext task a, [])
  | .finish task =>
    match q.acceptances[task]? with
    | none => (q, [])
    | some a =>
      (if a.rest = [] then
        GossipProcess.finish { q with acceptances := q.acceptances.eraseIdx task } (c.wired p) a
      else q, [])
  | .relay task targets =>
    match q.relays[task]? with
    | none => (q, [])
    | some r => c.pushRelay p q task r targets

def step (s : Epidemic) (a : String × GossipMove) : Epidemic :=
  if a.1 ∈ c.nodes then
    let (q, sent) := c.move a.1 s.sent (s.processes a.1) a.2
    { processes := fun p => if p = a.1 then q else s.processes p
      sent := s.sent ++ sent }
  else s

def run (actions : List (String × GossipMove)) : Epidemic := actions.foldl c.step ⟨fun _ => .boot, []⟩

end GossipCluster

end Tourillon
