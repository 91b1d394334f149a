import Tourillon.Store.RepairToken
import Tourillon.Store.WriteQuorum

namespace Tourillon

open Endian

inductive RepairIssue where
  | repaired
  | alreadyDurable
  deriving DecidableEq, Repr

structure RepairRequest where
  token : String
  quorumWrite : Int

structure RepairResult where
  issue : RepairIssue
  replicas : Nat
  token : String
  deriving DecidableEq, Repr

structure NewerVersion where
  version : KeyTag
  replicas : Nat
  owners : List String
  deriving DecidableEq, Repr

inductive RepairError where
  | store (e : StoreError)
  | invalidRepairToken (reason : String)
  | outdatedRepair (token : String) (received : Nat) (required : Int) (newer : List NewerVersion)
  | versionNotFound (token : String)
  deriving DecidableEq, Repr

structure RepairTarget where
  owner : String
  target : String
  hinted : Option String
  deriving DecidableEq, Repr

def KeyTag.toDict (i : KeyTag) : Payload := .map [("key", i.key.toDict), ("tag", i.tag.toDict)]

def KeyTag.fromDict (data : Payload) : Except PyError KeyTag := do
  let key ← Key.fromDict (← data.field "key")
  let tag ← Tag.fromDict (← data.field "tag")
  return ⟨key, tag⟩

structure LookupPayload where
  record : Option Payload
  retained : List Payload
  outsideRetention : Bool

namespace VersionLookup

def toDict (v : VersionLookup) : LookupPayload :=
  ⟨v.exact.map Record.toDict, v.identities.map KeyTag.toDict, v.outsideRetention⟩

def fromDict (data : LookupPayload) : Except PyError VersionLookup :=
  if data.retained.length > 64 then
    .error (.valueError "retained lookup identities must be bounded")
  else do
    let record ← data.record.mapM Record.fromDict
    let retained ← data.retained.mapM KeyTag.fromDict
    return ⟨record, retained, data.outsideRetention⟩

end VersionLookup

def maxClockSkewMs : Int := 60000

def repairTarget (e : Preference) : Option RepairTarget :=
  match e.handoff with
  | some handoff => some ⟨e.nodeId, handoff, some e.nodeId⟩
  | none => if e.readable then some ⟨e.nodeId, e.nodeId, none⟩ else none

def repairFanout (preferences : List Preference) : List RepairTarget := preferences.filterMap repairTarget

def directOwners (fanout : List RepairTarget) : List String :=
  (fanout.filter fun e => e.owner = e.target).map RepairTarget.owner

def lookupReply (key : Key) (found : VersionLookup) : Except PyError VersionLookup := do
  let result ← VersionLookup.fromDict found.toDict
  if result.exact.any fun r => r.key ≠ key then
    .error (.valueError "lookup returned a different exact version")
  else if result.identities.any fun i => i.key.address ≠ key.address || i.key.pid ≠ key.pid then
    .error (.valueError "lookup returned another address")
  else return result

inductive LookupPhase where
  | asked
  | done (result : Except ReplicaError VersionLookup)

structure LookupTask where
  target : String
  seen : Option VersionLookup
  phase : LookupPhase

inductive LookupAction where
  | serve
  | answer
  | fail (e : ReplicaError)

inductive ScanAction where
  | other (a : FleetAction)
  | lookup (i : Nat) (a : LookupAction)

structure Scan where
  fleet : Fleet
  tasks : List LookupTask

structure RepairReads where
  answers : List (String × VersionLookup)
  errors : List ReplicaError

abbrev LookupAnswer : Type := Nat → Except ReplicaError VersionLookup

section

variable (fanout : List RepairTarget)

def ownerName (i : Nat) : String := (fanout.map RepairTarget.owner).getD i ""

def RepairReads.collect (answer : LookupAnswer) (done : List Nat) (s : RepairReads) : RepairReads :=
  done.foldl (fun s task =>
    match answer task with
    | .ok found => ⟨s.answers ++ [(ownerName fanout task, found)], s.errors⟩
    | .error e => ⟨s.answers, s.errors ++ [e]⟩) s

def collectRepairReads (answer : LookupAnswer) (arrivals : List (List Nat)) : RepairReads :=
  let out := Gather.gather (RepairReads.collect fanout answer) (fun _ => false) arrivals
    (List.range fanout.length) ⟨[], []⟩
  ⟨out.state.answers, out.state.errors ++
    if out.expired then unanswered (out.running.map (ownerName fanout)) else []⟩

end

def repairSource (records : List (Option Record)) : Option Record := records.reduceOption.find? Record.owned

def repairHolders (answers : List (String × VersionLookup)) (fanout : List RepairTarget) : List String :=
  ((answers.filter fun a => a.1 ∈ directOwners fanout && a.2.exact.any Record.owned).map Prod.fst).dedup

def newerCopies (fanout : List RepairTarget) (key : Key) (lookups : List (String × VersionLookup)) :
    Except PyError (List (Bytes × KeyTag × List String)) :=
  (lookups.flatMap fun a => a.2.identities.map fun identity => (a.1, identity)).foldlM
    (fun copies found =>
      if found.1 ∈ directOwners fanout ∧ key.ts < found.2.key.ts then do
        let raw ← found.2.key.toBytes .tags
        if raw ∈ copies.map Prod.fst then
          return copies.map fun copy =>
            if copy.1 = raw then (copy.1, copy.2.1, copy.2.2 ++ [found.1]) else copy
        else return copies ++ [(raw, found.2, [found.1])]
      else return copies) []

def newerVersions (copies : List (Bytes × KeyTag × List String)) : List NewerVersion :=
  ((copies.map Prod.snd).insertionSort fun a b => b.1.key.ts ≤ a.1.key.ts).map fun copy =>
    ⟨copy.1, copy.2.dedup.length, copy.2.dedup.insertionSort (· ≤ ·)⟩

def checkOutdated (request : RepairRequest) (key : Key) (fanout : List RepairTarget)
    (lookups : List (String × VersionLookup)) (durable : Nat) : Except RepairError Unit :=
  if request.quorumWrite ≤ durable then .ok ()
  else
    let outside := ((lookups.filter fun a => a.1 ∈ directOwners fanout && a.2.outsideRetention).map Prod.fst).dedup
    let owners := (fanout.map RepairTarget.owner).dedup
    if outside = [] ∨ request.quorumWrite ≤ (owners.length : Int) - outside.length then .ok ()
    else do
      let copies ← (newerCopies fanout key lookups).mapError fun e => .store (.python e)
      .error (.outdatedRepair request.token durable request.quorumWrite (newerVersions copies))

structure RepairPlan where
  source : Record
  holders : List String
  missing : List (String × Option String)
  errors : List ReplicaError
  deriving DecidableEq, Repr

def planRepair (request : RepairRequest) (key : Key) (fanout : List RepairTarget)
    (reads : RepairReads) : Except RepairError RepairPlan :=
  match repairSource (reads.answers.map fun a => a.2.exact) with
  | none => do
    checkOutdated request key fanout reads.answers 0
    .error (.versionNotFound request.token)
  | some source =>
    let holders := repairHolders reads.answers fanout
    .ok ⟨source, holders, (fanout.filter fun e => e.owner ∉ holders).map fun e => (e.target, e.hinted),
      reads.errors⟩

def fanoutRepair (targets : List (String × Option String)) (answer : WriteAnswer)
    (arrivals : List (List Nat)) : Gather.Outcome Nat Writes :=
  Gather.gather (Writes.collect answer) (fun _ => false) arrivals (List.range targets.length) ⟨[], []⟩

def ensureRepairQuorum (durable : Nat) (request : RepairRequest) (errors : List ReplicaError) :
    Except RepairError Unit :=
  (ensureQuorum durable request.quorumWrite.toNat "repair" errors (some request.token)).mapError .store

def finishRepair (request : RepairRequest) (plan : RepairPlan) (answer : WriteAnswer)
    (arrivals : List (List Nat)) : Except RepairError RepairResult :=
  if plan.missing = [] then do
    ensureRepairQuorum plan.holders.length request plan.errors
    return ⟨.alreadyDurable, plan.holders.length, request.token⟩
  else do
    let out := fanoutRepair plan.missing answer arrivals
    let durable := plan.holders.length + out.state.applied.length
    ensureRepairQuorum durable request (plan.errors ++ writeErrors plan.missing out)
    let issue := if out.state.applied = [] then RepairIssue.alreadyDurable else .repaired
    return ⟨issue, durable, request.token⟩

section Machine

variable [Blake2b] (d : Deployment) (node : String) (key : Key)

def LookupTask.step (f : Fleet) (t : LookupTask) : LookupAction → LookupTask
  | .serve =>
    match t.phase, t.seen with
    | .asked, none =>
      match (d.policy t.target).lookup (f.storage t.target (d.partitioner.groupFor key.pid)) key with
      | .ok found =>
        if t.target = node then { t with seen := some found, phase := .done (.ok found) }
        else { t with seen := some found }
      | .error e => if t.target = node then { t with phase := .done (.error (.raised e.text)) } else t
    | _, _ => t
  | .answer =>
    match t.phase, t.seen with
    | .asked, some found =>
      { t with phase := .done ((lookupReply key found).mapError fun e => .raised e.text) }
    | _, _ => t
  | .fail e =>
    match t.phase with
    | .asked => if t.target = node then t else { t with phase := .done (.error e) }
    | .done _ => t

namespace Scan

def start (f : Fleet) (fanout : List RepairTarget) : Scan := ⟨f, fanout.map fun e => ⟨e.target, none, .asked⟩⟩

def step (s : Scan) : ScanAction → Scan
  | .other a => { s with fleet := s.fleet.step d a }
  | .lookup i a =>
    match s.tasks[i]? with
    | some t => { s with tasks := s.tasks.set i (t.step d node key s.fleet a) }
    | none => s

def run (s : Scan) (acts : List ScanAction) : Scan := acts.foldl (step d node key) s

def outcome (s : Scan) (i : Nat) : Except ReplicaError VersionLookup :=
  match s.tasks[i]? with
  | some ⟨_, _, .done result⟩ => result
  | _ => .error (.raised "task is still running")

end Scan

end Machine

structure RepairService where
  node : String
  strategy : SimplePlacementStrategy
  deployment : Deployment

structure RepairSchedule where
  lookups : List ScanAction
  answered : List (List Nat)
  writes : List FanAction
  acknowledged : List (List Nat)

namespace RepairService

variable (service : RepairService)

def repairKey (site : Site) (token : String) : Except RepairError Key := do
  let key ← (decodeToken token).mapError fun e => RepairError.invalidRepairToken e.text
  let encoded ← key.address.toBytes.mapError fun e => RepairError.store (.python e)
  let space := service.strategy.space
  let expected := service.strategy.partitioner.pidForHash space (space.hash encoded)
  if expected ≠ key.pid then
    .error (.invalidRepairToken s!"partition id {key.pid} does not match address (expected {expected})")
  else if max site.wall site.clock.snapshot.wallMs + maxClockSkewMs < key.ts.wallMs then
    .error (.invalidRepairToken s!"timestamp {key.ts.wallMs} is beyond the acceptable clock skew")
  else return key

def beginRepair (t : Topology) (alive : String → Bool) (f : Fleet) (request : RepairRequest) :
    Except RepairError (Key × List RepairTarget) := do
  (validateQuorum "repair" request.quorumWrite).mapError .store
  let key ← service.repairKey (f.sites service.node) request.token
  let list ← (service.strategy.preferenceList t alive key.address).mapError fun e =>
    RepairError.store (.python e)
  let fanout := repairFanout list.preferences
  if fanout = [] then .error (.store (.noReplicaAvailable "repair")) else return (key, fanout)

variable [Blake2b] (f : Fleet) (request : RepairRequest) (key : Key) (fanout : List RepairTarget)
  (schedule : RepairSchedule)

def scanned (acts : List ScanAction) : Scan :=
  (Scan.start f fanout).run service.deployment service.node key acts

def plan : Except RepairError RepairPlan :=
  planRepair request key fanout (collectRepairReads fanout
    (service.scanned f key fanout schedule.lookups).outcome schedule.answered)

def order (plan : RepairPlan) : Order := ⟨service.node, plan.source⟩

def written (plan : RepairPlan) (acts : List FanAction) : Fan :=
  Fan.run service.deployment (service.order plan)
    ⟨(service.scanned f key fanout schedule.lookups).fleet, plan.missing.map FanTask.create⟩ acts

def runRepair : Except RepairError RepairResult := do
  let plan ← service.plan f request key fanout schedule
  finishRepair request plan (service.written f key fanout schedule plan schedule.writes).outcome
    schedule.acknowledged

end RepairService

end Tourillon
