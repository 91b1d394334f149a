import Tourillon.Library.Dict
import Mathlib.Algebra.Order.Ring.Unbundled.Rat
import Mathlib.Data.List.MinMax

namespace Tourillon

structure PeerClient where
  id : Nat
  peerId : String
  bind : String
  deriving DecidableEq, Repr

structure PeerConnection where
  peerId : String
  client : PeerClient
  refcount : Int
  ephemeral : Bool
  retiredClients : Dict Nat (PeerClient × Int)

def PeerConnection.unleased (peer : PeerConnection) : Bool :=
  peer.refcount = 0 && peer.retiredClients.entries.isEmpty

structure PoolConfig where
  minSize : Int
  maxSize : Int
  maxOverflow : Int
  prioritySize : Int
  idleTtl : ℚ
  maxPositive : 1 ≤ maxSize
  priorityNonnegative : 0 ≤ prioritySize
  ttlPositive : 0 < idleTtl

inductive PoolError where
  | runtimeError (message : String)
  | timeoutError (message : String)
  | connectError
  deriving DecidableEq, Repr

inductive Tier where
  | permanent
  | overflow
  | priority
  deriving DecidableEq, Repr

structure PeerPool where
  permanents : Dict String PeerConnection
  overflows : Dict String PeerConnection
  priorityReserve : Dict String PeerConnection
  lru : List String
  next : Nat
  closed : List PeerClient
  acquired : List PeerClient
  released : List PeerClient

namespace PeerPool

def initial : PeerPool := ⟨∅, ∅, ∅, [], 0, [], [], []⟩

variable (p : PeerPool)

def peers : Tier → Dict String PeerConnection
  | .permanent => p.permanents
  | .overflow => p.overflows
  | .priority => p.priorityReserve

def withPeers : Tier → Dict String PeerConnection → PeerPool
  | .permanent, d => { p with permanents := d }
  | .overflow, d => { p with overflows := d }
  | .priority, d => { p with priorityReserve := d }

def put (tier : Tier) (peerId : String) (peer : PeerConnection) : PeerPool :=
  p.withPeers tier ((p.peers tier).set peerId peer)

def findPeer (peerId : String) : Option (Tier × PeerConnection) :=
  match p.permanents.get peerId with
  | some peer => some (.permanent, peer)
  | none =>
    match p.overflows.get peerId with
    | some peer => some (.overflow, peer)
    | none => (p.priorityReserve.get peerId).map (Prod.mk .priority)

def close (client : PeerClient) : PeerPool := { p with closed := client :: p.closed }

def connect (peerId bind : String) (connects : Bool) : Option PeerClient × PeerPool :=
  let client : PeerClient := ⟨p.next, peerId, bind⟩
  let p := { p with next := p.next + 1 }
  if connects then (some client, p) else (none, p.close client)

def enlist (tier : Tier) (peerId : String) : PeerPool :=
  if tier = .permanent then { p with lru := p.lru ++ [peerId] } else p

def create (tier : Tier) (peerId bind : String) (connects : Bool) : Except PoolError PeerClient × PeerPool :=
  match p.connect peerId bind connects with
  | (none, p) => (.error .connectError, p)
  | (some client, p) =>
    (.ok client, (p.put tier peerId ⟨peerId, client, 1, tier ≠ .permanent, ∅⟩).enlist tier peerId)

def createPermanent := p.create .permanent

def createOverflow := p.create .overflow

def createPriorityOverflow := p.create .priority

def idleLruPeer : Option String :=
  p.lru.find? fun peerId => (p.permanents.get peerId).any PeerConnection.unleased

def expire (tier : Tier) (peerId : String) : PeerPool :=
  match (p.peers tier).get peerId with
  | none => p
  | some peer =>
    let p := p.withPeers tier ((p.peers tier).erase peerId)
    let p := if tier = .permanent then { p with lru := p.lru.erase peerId } else p
    p.close peer.client

def evictPermanent := p.expire .permanent

def mayRefreshPeer (tier : Tier) (peerId : String) (peer : PeerConnection) (bind : String)
    (connects : Bool) : Except PoolError PeerClient × PeerPool :=
  if peer.client.bind = bind then
    (.ok peer.client, p.put tier peerId { peer with refcount := peer.refcount + 1 })
  else if peer.retiredClients.entries ≠ [] then
    (.error (.timeoutError s!"peer {peer.peerId} still has leases on its previous address"), p)
  else
    match p.connect peer.peerId bind connects with
    | (none, p) => (.error .connectError, p)
    | (some new, p) =>
      if peer.refcount ≠ 0 then
        (.ok new, p.put tier peerId
          { peer with
            client := new
            refcount := 1
            retiredClients := peer.retiredClients.set peer.client.id (peer.client, peer.refcount) })
      else (.ok new, (p.close peer.client).put tier peerId { peer with client := new, refcount := 1 })

def moveToEnd (tier : Tier) (peerId : String) : PeerPool :=
  if tier = .permanent then { p with lru := p.lru.erase peerId ++ [peerId] } else p

def acquireLocked (c : PoolConfig) (peerId : String) (priority : Bool) (bind : Option String)
    (connects : Bool) : Except PoolError PeerClient × PeerPool :=
  match bind with
  | none => (.error (.runtimeError s!"unknown peer: {peerId}"), p)
  | some bind =>
    match p.findPeer peerId with
    | some (tier, peer) =>
      match p.mayRefreshPeer tier peerId peer bind connects with
      | (.error e, p) => (.error e, p)
      | (.ok client, p) => (.ok client, p.moveToEnd tier peerId)
    | none =>
      if p.permanents.size < c.maxSize then p.createPermanent peerId bind connects
      else if p.overflows.size < c.maxOverflow then p.createOverflow peerId bind connects
      else
        match p.idleLruPeer with
        | some victim => (p.evictPermanent victim).createPermanent peerId bind connects
        | none =>
          if priority then
            if c.prioritySize ≤ p.priorityReserve.size then
              (.error (.timeoutError
                s!"peer pool priority reserve is full; no priority connection available for {peerId}"), p)
            else p.createPriorityOverflow peerId bind connects
          else (.error (.timeoutError s!"peer pool is saturated; no idle connection available for {peerId}"), p)

def acquire (c : PoolConfig) (peerId : String) (priority : Bool) (bind : Option String)
    (connects : Bool) : Except PoolError PeerClient × PeerPool :=
  match p.acquireLocked c peerId priority bind connects with
  | (.ok client, p) => (.ok client, { p with acquired := client :: p.acquired })
  | (.error e, p) => (.error e, p)

def removeEphemeral (peer : PeerConnection) : PeerPool :=
  { p with
    overflows := p.overflows.erase peer.peerId
    priorityReserve := p.priorityReserve.erase peer.peerId
    closed := peer.client :: p.closed }

def settleEphemeral (peer : PeerConnection) : PeerPool :=
  if peer.ephemeral && peer.unleased then p.removeEphemeral peer else p

def releaseRetired (tier : Tier) (peerId : String) (peer : PeerConnection) (client : PeerClient) : PeerPool :=
  match peer.retiredClients.get client.id with
  | none => p
  | some (retired, count) =>
    if retired ≠ client then p
    else if count - 1 ≠ 0 then
      let peer := { peer with retiredClients := peer.retiredClients.set client.id (client, count - 1) }
      (p.put tier peerId peer).settleEphemeral peer
    else
      let peer := { peer with retiredClients := peer.retiredClients.erase client.id }
      ((p.put tier peerId peer).close client).settleEphemeral peer

def releaseLocked (peerId : String) (client : PeerClient) : PeerPool :=
  match p.findPeer peerId with
  | none => p
  | some (tier, peer) =>
    if client ≠ peer.client then p.releaseRetired tier peerId peer client
    else
      let peer := { peer with refcount := peer.refcount - 1 }
      (p.put tier peerId peer).settleEphemeral peer

def release (peerId : String) (client : PeerClient) : PeerPool :=
  let p := p.releaseLocked peerId client
  { p with released := client :: p.released }

section

variable (c : PoolConfig) (inactivity : PeerClient → ℚ)

def expired (tier : Tier) : List String :=
  ((p.peers tier).entries.filter fun e => e.2.unleased && c.idleTtl ≤ inactivity e.2.client).map Prod.fst

def expiredPermanents : List String :=
  if p.permanents.size ≤ c.minSize then [] else p.expired c inactivity .permanent

def removeExpired : PeerPool :=
  let expiredPermanents := p.expiredPermanents c inactivity
  let expiredOverflows := p.expired c inactivity .overflow
  let expiredPriorities := p.expired c inactivity .priority
  let p := expiredPermanents.foldl (fun p => p.expire .permanent) p
  let p := expiredOverflows.foldl (fun p => p.expire .overflow) p
  expiredPriorities.foldl (fun p => p.expire .priority) p

end

def promote (promoteId : String) (peer : PeerConnection) : PeerPool :=
  { p with
    overflows := p.overflows.erase promoteId
    permanents := p.permanents.set promoteId { peer with ephemeral := false }
    lru := p.lru ++ [promoteId] }

def promoteWhile (c : PoolConfig) (inactivity : Nat → PeerClient → ℚ) : Nat → PeerPool → PeerPool
  | 0, p => p
  | n + 1, p =>
    if p.permanents.size < c.maxSize then
      match p.overflows.entries.argmin fun e => inactivity n e.2.client with
      | none => p
      | some (promoteId, peer) => promoteWhile c inactivity n (p.promote promoteId peer)
    else p

def tryPromoteOverflow (c : PoolConfig) (inactivity : Nat → PeerClient → ℚ) : PeerPool :=
  promoteWhile c inactivity p.overflows.size p

def reap (c : PoolConfig) (idle : PeerClient → ℚ) (later : Nat → PeerClient → ℚ) : PeerPool :=
  (p.removeExpired c idle).tryPromoteOverflow c later

end PeerPool

inductive PoolCall where
  | acquire (peerId : String) (priority : Bool) (bind : Option String) (connects : Bool)
  | release (client : PeerClient)
  | reap (idle : PeerClient → ℚ) (later : Nat → PeerClient → ℚ)

namespace PeerPool

def step (c : PoolConfig) (p : PeerPool) : PoolCall → PeerPool
  | .acquire peerId priority bind connects => (p.acquire c peerId priority bind connects).2
  | .release client => p.release client.peerId client
  | .reap idle later => p.reap c idle later

def Allowed (p : PeerPool) : PoolCall → Prop
  | .release client => p.released.count client < p.acquired.count client
  | .acquire _ _ _ _ => True
  | .reap _ _ => True

instance (p : PeerPool) (call : PoolCall) : Decidable (p.Allowed call) :=
  match call with
  | .release client => inferInstanceAs (Decidable (p.released.count client < p.acquired.count client))
  | .acquire _ _ _ _ => isTrue trivial
  | .reap _ _ => isTrue trivial

end PeerPool

end Tourillon
