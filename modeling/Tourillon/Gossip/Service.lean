import Tourillon.Gossip.Topology

namespace Tourillon

open Prog TopologyManager

structure GossipPush where
  sender : String
  hopLimit : Nat
  members : List Member
  deriving DecidableEq, Repr

structure GossipPushAccept where
  sender : String
  accepted : Nat
  ignored : Nat
  deriving DecidableEq, Repr

structure GossipPing where
  sender : String
  fingerprint : String
  count : Nat
  deriving DecidableEq, Repr

structure GossipPong where
  sender : String
  same : Bool
  deriving DecidableEq, Repr

structure GossipNodeDigest where
  nodeId : String
  epoch : Nat
  deriving DecidableEq, Repr

structure GossipDigest where
  sender : String
  hasMore : Bool
  afterNodeId : String
  digest : List GossipNodeDigest
  deriving DecidableEq, Repr

structure GossipDelta where
  sender : String
  members : List Member
  hasMore : Bool
  afterNodeId : String
  wanted : List String
  deriving DecidableEq, Repr

structure GossipRelay where
  members : List Member
  hopLimit : Nat
  sender : String
  deriving DecidableEq, Repr

def requireStr (value name : String) : Except PyError Unit :=
  if value = "" then .error (.valueError s!"{name} must be a non-empty string") else .ok ()

def GossipPush.fromDocument (data : GossipPush) : Except PyError GossipPush := do
  requireStr data.sender "sender"
  return data

def GossipPing.fromDocument (data : GossipPing) : Except PyError GossipPing := do
  requireStr data.sender "sender"
  requireStr data.fingerprint "fingerprint"
  return data

def GossipDigest.fromDocument (data : GossipDigest) : Except PyError GossipDigest := do
  let digest ← data.digest.mapM fun item => do
    requireStr item.nodeId "node_id"
    return item
  requireStr data.sender "sender"
  return { data with digest := digest }

structure GossipService where
  nodeId : String
  relay : Bool
  deltaSize : Nat
  deltaSize_pos : 0 < deltaSize

def gossipDeltaSize : Nat := 1024

namespace GossipService

def make (nodeId : String) (relay : Bool) : GossipService := ⟨nodeId, relay, gossipDeltaSize, by decide⟩

def wanted (remoteEpochs locals : OrderedMap String Nat) : List String :=
  (remoteEpochs.entries.filter fun e =>
    match locals.get e.1 with
    | none => true
    | some epoch => epoch < e.2).map Prod.fst

def epochsOf (digest : List GossipNodeDigest) : OrderedMap String Nat :=
  digest.foldl (fun epochs item => epochs.insert item.nodeId item.epoch) ∅

def deltaMembers (registry : MemberRegistry) (remoteEpochs : OrderedMap String Nat) : List Member :=
  (registry.entries.map Prod.snd).filter fun m =>
    match remoteEpochs.get m.nodeId with
    | none => true
    | some epoch => epoch < m.epoch

def localEpochs (registry : MemberRegistry) : OrderedMap String Nat :=
  (registry.entries.map Prod.snd).foldl (fun epochs m => epochs.insert m.nodeId m.epoch) ∅

def pages (s : GossipService) (members : List Member) (wanted : List String) : Nat → Nat → List GossipDelta
  | 0, _ => []
  | fuel + 1, start =>
    let stop := min (start + s.deltaSize) members.length
    let page := (members.take stop).drop start
    let hasMore := stop < members.length
    let afterNodeId := if hasMore then (page.getLast?.map Member.nodeId).getD "" else ""
    ⟨s.nodeId, page, hasMore, afterNodeId, wanted⟩ ::
      if hasMore then s.pages members wanted fuel stop else []

def delta (s : GossipService) (registry : MemberRegistry) (request : GossipDigest) : List GossipDelta :=
  let remoteEpochs := epochsOf request.digest
  let members := deltaMembers registry remoteEpochs
  let start := if request.afterNodeId ≠ "" then
    members.findIdx fun m => request.afterNodeId < m.nodeId else 0
  s.pages members (wanted remoteEpochs (localEpochs registry)) (members.length + 1) start

variable [Digests]

def acceptEach (between : Nat → List TopologyCall) :
    Nat → List Member → List Member → Nat → Topo (List Member × Nat)
  | _, [], accepted, ignored => pure (accepted, ignored)
  | turn, m :: members, accepted, ignored => do
    modify fun t => (between turn).foldl TopologyCall.run t
    if ← applyMember m then
      acceptEach between (turn + 1) members (accepted ++ [m]) ignored
    else acceptEach between (turn + 1) members accepted (ignored + 1)

def accept (s : GossipService) (between : Nat → List TopologyCall) (request : GossipPush) :
    Topo (GossipPushAccept × Option GossipRelay) := do
  let (accepted, ignored) ← acceptEach between 0 request.members [] 0
  let relayed := if accepted ≠ [] ∧ request.hopLimit > 1 ∧ s.relay = true then
    some ⟨accepted, request.hopLimit - 1, request.sender⟩ else none
  pure (⟨s.nodeId, accepted.length, ignored⟩, relayed)

def pong (s : GossipService) (between : List TopologyCall) (request : GossipPing) : Topo GossipPong := do
  let topology ← get
  modify fun t => between.foldl TopologyCall.run t
  let fingerprint ← memberFingerprint
  pure ⟨s.nodeId, request.fingerprint = fingerprint && request.count = topology.registry.entries.length⟩

end GossipService

structure Gossiper where
  nodeId : String

structure Reconciliation where
  initiator : TopologyManager
  responder : TopologyManager

abbrev Dialogue (α : Type) : Type := Prog Reconciliation PyError α

def atInitiator {α : Type} (x : Topo α) : Dialogue α :=
  zoom Reconciliation.initiator (fun s t => { s with initiator := t }) x

def atResponder {α : Type} (x : Topo α) : Dialogue α :=
  zoom Reconciliation.responder (fun s t => { s with responder := t }) x

namespace Gossiper

variable [Digests]

def buildPing (g : Gossiper) (between : List TopologyCall) : Topo GossipPing := do
  let fingerprint ← memberFingerprint
  modify fun t => between.foldl TopologyCall.run t
  let topology ← get
  pure ⟨g.nodeId, fingerprint, topology.registry.entries.length⟩

def buildDigest (g : Gossiper) : Topo GossipDigest := do
  let topology ← get
  pure ⟨g.nodeId, false, "", (topology.registry.entries.map Prod.snd).map fun m => ⟨m.nodeId, m.epoch⟩⟩

def mergeDeltas : List GossipDelta → List String → Dialogue (List String)
  | [], wanted => pure wanted
  | delta :: rest, wanted => do
    let _ ← atInitiator (mergeRegistry delta.members)
    if delta.hasMore then mergeDeltas rest (wanted ∪ delta.wanted)
    else pure (wanted ∪ delta.wanted)

def satisfyWanted (g : Gossiper) (peer : GossipService) (wanted : List String) : Dialogue Unit := do
  let s ← get
  let toSend := (s.initiator.registry.entries.map Prod.snd).filter fun m => m.nodeId ∈ wanted
  whenever (toSend ≠ []) do
    let request ← lift (GossipPush.fromDocument ⟨g.nodeId, 1, toSend⟩)
    let _ ← atResponder (peer.accept (fun _ => []) request)
    pure ()

def aeDigestDelta (g : Gossiper) (peer : GossipService) : Dialogue Unit := do
  let digest ← atInitiator g.buildDigest
  let request ← lift digest.fromDocument
  let s ← get
  let wanted ← mergeDeltas (peer.delta s.responder.registry request) []
  whenever (wanted ≠ []) (g.satisfyWanted peer wanted)

end Gossiper

namespace Sample

def relaying : GossipService := .make "s" true

def resting : Member := ⟨"a", "a:1", 1, .idle, []⟩

def waking : Member := ⟨"a", "a:1", 2, .joining, []⟩

end Sample

end Tourillon
