import Tourillon.Library.Leases
import Tourillon.Peer.Pool

namespace Tourillon

open Leases Dict

namespace PeerConnection

def recordOf (peer : PeerConnection) (client : PeerClient) : Option Int :=
  if client = peer.client then some peer.refcount
  else ((peer.retiredClients.get client.id).filter fun r => r.1 = client).map Prod.snd

structure Belongs (peer : PeerConnection) (id : String) : Prop where
  named : peer.peerId = id
  owner : peer.client.peerId = id
  retired : ∀ k r, peer.retiredClients.get k = some r → r.1.id = k ∧ r.1.peerId = id

variable {peer : PeerConnection} {client : PeerClient} {id : String}

theorem recordOf_client (peer : PeerConnection) : peer.recordOf peer.client = some peer.refcount := if_pos rfl

theorem retired_of_recordOf {n : Int} (hne : client ≠ peer.client) (h : peer.recordOf client = some n) :
    peer.retiredClients.get client.id = some (client, n) := by
  rw [recordOf, if_neg hne, Option.map_eq_some_iff] at h
  obtain ⟨⟨retired, count⟩, hfilter, rfl⟩ := h
  obtain ⟨hget, heq⟩ := Option.filter_eq_some_iff.mp hfilter
  obtain rfl := of_decide_eq_true heq
  exact hget

theorem Belongs.owner_of_record (h : peer.Belongs id) {n : Int} (hn : peer.recordOf client = some n) :
    client.peerId = id := by
  rcases eq_or_ne client peer.client with rfl | hne
  · exact h.owner
  · exact (h.retired _ _ (retired_of_recordOf hne hn)).2

theorem recordOf_counted (peer : PeerConnection) (n : Int) (x : PeerClient) :
    { peer with refcount := n }.recordOf x = if x = peer.client then some n else peer.recordOf x := by
  unfold recordOf
  dsimp only
  split <;> rfl

section

variable (h : peer.retiredClients.entries = [])

include h

theorem get_of_nil (k : Nat) : peer.retiredClients.get k = none := by
  rw [Dict.get, h]
  rfl

theorem recordOf_of_nil (x : PeerClient) :
    peer.recordOf x = if x = peer.client then some peer.refcount else none := by
  rw [recordOf, get_of_nil h]
  rfl

theorem recordOf_retired (new x : PeerClient) (n m : Int) : { peer with
      client := new
      refcount := n
      retiredClients := peer.retiredClients.set peer.client.id (peer.client, m) }.recordOf x =
      if x = new then some n else if x = peer.client then some m else none := by
  rw [recordOf, get_set, get_of_nil h]
  split
  · rfl
  · rcases eq_or_ne x peer.client with rfl | hne
    · simp
    · rw [if_neg hne]
      split
      · simp [hne.symm]
      · rfl

end

theorem recordOf_revised {d : Dict Nat (PeerClient × Int)} {o : Option Int} {n : Int}
    (hne : client ≠ peer.client) (hget : peer.retiredClients.get client.id = some (client, n))
    (hself : d.get client.id = o.map (Prod.mk client))
    (hother : ∀ k, k ≠ client.id → d.get k = peer.retiredClients.get k) (x : PeerClient) :
    { peer with retiredClients := d }.recordOf x = if x = client then o else peer.recordOf x := by
  unfold recordOf
  rcases eq_or_ne x client with rfl | hx
  · rw [if_neg hne, if_pos rfl, hself]
    cases o <;> simp
  · rw [if_neg hx]
    split
    · rfl
    · by_cases hid : x.id = client.id
      · rw [hid, hself, hget]
        cases o <;> simp [Option.filter_some, hx.symm]
      · rw [hother _ hid]

theorem unleased_iff : peer.unleased = true ↔ peer.refcount = 0 ∧ peer.retiredClients.entries = [] := by
  simp [unleased]

end PeerConnection

def PoolConfig.capacity (c : PoolConfig) : Tier → Int
  | .permanent => c.maxSize
  | .overflow => max c.maxOverflow 0
  | .priority => c.prioritySize

namespace PeerPool

variable {c : PoolConfig} {p q : PeerPool} {tier : Tier} {id : String} {conn : PeerConnection}
  {client : PeerClient} (d : Dict String PeerConnection)

def countOf (p : PeerPool) (client : PeerClient) : Option Int :=
  (p.findPeer client.peerId).bind fun found => found.2.recordOf client

def book (p : PeerPool) : Book PeerClient := ⟨p.countOf, p.next, p.closed, p.acquired, p.released⟩

theorem peers_eq (hpermanents : q.permanents = p.permanents) (hoverflows : q.overflows = p.overflows)
    (hpriority : q.priorityReserve = p.priorityReserve) : q.peers = p.peers := by
  funext tier
  cases tier with
  | permanent => exact hpermanents
  | overflow => exact hoverflows
  | priority => exact hpriority

theorem peers_withPeers (p : PeerPool) (tier tier' : Tier) (d : Dict String PeerConnection) :
    (p.withPeers tier d).peers tier' = if tier' = tier then d else p.peers tier' := by
  cases tier <;> cases tier' <;> rfl

@[simp] theorem lru_withPeers : (p.withPeers tier d).lru = p.lru := by
  cases tier <;> rfl

@[simp] theorem next_withPeers : (p.withPeers tier d).next = p.next := by
  cases tier <;> rfl

@[simp] theorem closed_withPeers : (p.withPeers tier d).closed = p.closed := by
  cases tier <;> rfl

@[simp] theorem acquired_withPeers : (p.withPeers tier d).acquired = p.acquired := by
  cases tier <;> rfl

@[simp] theorem released_withPeers : (p.withPeers tier d).released = p.released := by
  cases tier <;> rfl

theorem get_put (p : PeerPool) (tier tier' : Tier) (id id' : String) (conn : PeerConnection) :
    ((p.put tier id conn).peers tier').get id' =
      if tier' = tier ∧ id' = id then some conn else (p.peers tier').get id' := by
  rw [put, peers_withPeers]
  by_cases htier : tier' = tier
  · subst htier
    rw [if_pos rfl, get_set]
    simp
  · simp [htier]

theorem of_findPeer (h : p.findPeer id = some (tier, conn)) : (p.peers tier).get id = some conn := by
  unfold findPeer at h
  split at h
  · cases h
    assumption
  · split at h
    · cases h
      assumption
    · obtain ⟨peer, hpeer, heq⟩ := Option.map_eq_some_iff.mp h
      cases heq
      exact hpeer

theorem findPeer_eq_none (h : p.findPeer id = none) (tier : Tier) : (p.peers tier).get id = none := by
  unfold findPeer at h
  split at h
  · cases h
  · split at h
    · cases h
    · cases tier with
      | permanent => assumption
      | overflow => assumption
      | priority => exact Option.map_eq_none_iff.mp h

theorem findPeer_of_get (hget : (p.peers tier).get id = some conn)
    (hfits : ∀ tier', tier' ≠ tier → (p.peers tier').get id = none) : p.findPeer id = some (tier, conn) := by
  cases hfind : p.findPeer id with
  | none =>
    rw [findPeer_eq_none hfind tier] at hget
    cases hget
  | some found =>
    obtain ⟨tier', conn'⟩ := found
    have hget' := of_findPeer hfind
    by_cases htier : tier' = tier
    · subst htier
      rw [hget] at hget'
      cases hget'
      rfl
    · rw [hfits tier' htier] at hget'
      cases hget'

theorem findPeer_of_none (h : ∀ tier, (p.peers tier).get id = none) : p.findPeer id = none := by
  cases hfind : p.findPeer id with
  | none => rfl
  | some found =>
    obtain ⟨tier, conn⟩ := found
    have hget := of_findPeer hfind
    rw [h] at hget
    cases hget

theorem findPeer_congr (h : ∀ tier, (q.peers tier).get id = (p.peers tier).get id) :
    q.findPeer id = p.findPeer id := by
  have hpermanent : q.permanents.get id = p.permanents.get id := h .permanent
  have hoverflow : q.overflows.get id = p.overflows.get id := h .overflow
  have hpriority : q.priorityReserve.get id = p.priorityReserve.get id := h .priority
  unfold findPeer
  rw [hpermanent, hoverflow, hpriority]

theorem countOf_of_find {o : Option PeerConnection} (hself : (q.findPeer id).map Prod.snd = o)
    (hother : ∀ id', id' ≠ id → q.findPeer id' = p.findPeer id') (client : PeerClient) :
    q.countOf client = if client.peerId = id then o.bind (fun conn => conn.recordOf client)
      else p.countOf client := by
  unfold countOf
  split
  · rename_i heq
    rw [heq, ← hself]
    cases q.findPeer id <;> rfl
  · rename_i hne
    rw [hother _ hne]

theorem countOf_put (hfits : ∀ tier', tier' ≠ tier → (p.peers tier').get id = none) (conn : PeerConnection)
    (client : PeerClient) : (p.put tier id conn).countOf client =
      if client.peerId = id then conn.recordOf client else p.countOf client := by
  have hget : ((p.put tier id conn).peers tier).get id = some conn := by rw [get_put, if_pos ⟨rfl, rfl⟩]
  refine countOf_of_find (o := some conn) ?_ ?_ client
  · rw [findPeer_of_get hget]
    · rfl
    · intro tier' htier
      rw [get_put, if_neg fun h => htier h.1, hfits tier' htier]
  · intro id' hne
    refine findPeer_congr fun tier' => ?_
    rw [get_put, if_neg fun h => hne h.2]

theorem countOf_without (hq : ∀ t, q.peers t = if t = tier then (p.peers tier).erase id else p.peers t)
    (hfits : ∀ tier', tier' ≠ tier → (p.peers tier').get id = none) (client : PeerClient) :
    q.countOf client = if client.peerId = id then none else p.countOf client := by
  have hget (t : Tier) (id' : String) :
      (q.peers t).get id' = if t = tier ∧ id' = id then none else (p.peers t).get id' := by
    rw [hq]
    by_cases htier : t = tier
    · subst htier
      rw [if_pos rfl, get_erase]
      simp
    · simp [htier]
  refine countOf_of_find (o := none) ?_ ?_ client
  · rw [findPeer_of_none]
    · rfl
    · intro t
      rw [hget]
      split
      · rfl
      · rename_i hother
        exact hfits t fun heq => hother ⟨heq, rfl⟩
  · intro id' hne
    refine findPeer_congr fun t => ?_
    rw [hget, if_neg fun h => hne h.2]

structure Housed (c : PoolConfig) (p : PeerPool) : Prop where
  apart : ∀ {tier tier' id}, id ∈ (p.peers tier).keys → id ∈ (p.peers tier').keys → tier = tier'
  keyed : ∀ {tier id conn}, (p.peers tier).get id = some conn →
    conn.Belongs id ∧ conn.ephemeral = decide (tier ≠ .permanent)
  lru : p.lru.Perm p.permanents.keys
  capped : ∀ tier, (p.peers tier).size ≤ c.capacity tier

theorem housed_initial (c : PoolConfig) : Housed c initial where
  apart := by
    intro tier tier' id hid
    cases tier <;> cases hid
  keyed := by
    intro tier id conn hget
    cases tier <;> cases hget
  lru := List.Perm.nil
  capped tier := by
    have hmax := c.maxPositive
    have hpriority := c.priorityNonnegative
    cases tier with
    | permanent => exact (by omega : (0 : Int) ≤ c.maxSize)
    | overflow => exact le_max_right _ _
    | priority => exact hpriority

section

variable (h : Housed c p)

include h

theorem Housed.congr (hpeers : q.peers = p.peers) (hlru : q.lru.Perm p.lru) : Housed c q where
  apart := by
    rw [hpeers]
    exact h.apart
  keyed := by
    rw [hpeers]
    exact h.keyed
  lru := by
    have hpermanents : q.permanents = p.permanents := congrFun hpeers .permanent
    rw [hpermanents]
    exact hlru.trans h.lru
  capped tier := by
    rw [hpeers]
    exact h.capped tier

section

variable (hget : (p.peers tier).get id = some conn)

include hget

theorem Housed.fits (tier' : Tier) (hne : tier' ≠ tier) : (p.peers tier').get id = none := by
  rw [get_eq_none]
  intro hin
  exact hne (h.apart hin (mem_keys.mpr ⟨conn, hget⟩))

theorem Housed.countOf_eq (hclient : client.peerId = id) : p.countOf client = conn.recordOf client := by
  rw [countOf, hclient, findPeer_of_get hget (h.fits hget)]
  rfl

theorem Housed.put {conn' : PeerConnection} (hbelongs : conn'.Belongs id)
    (hephemeral : conn'.ephemeral = conn.ephemeral) : Housed c (p.put tier id conn') := by
  have hmem : id ∈ (p.peers tier).keys := mem_keys.mpr ⟨conn, hget⟩
  have hkeys (tier' : Tier) : ((p.put tier id conn').peers tier').keys = (p.peers tier').keys := by
    rw [PeerPool.put, peers_withPeers]
    split
    · rename_i heq
      rw [heq, keys_set_of_mem hmem]
    · rfl
  refine ⟨?_, ?_, ?_, ?_⟩
  · intro t t' id'
    rw [hkeys, hkeys]
    exact h.apart
  · intro t id' conn'' hget''
    rw [get_put] at hget''
    split at hget''
    · rename_i heq
      obtain ⟨rfl, rfl⟩ := heq
      cases hget''
      rw [hephemeral]
      exact ⟨hbelongs, (h.keyed hget).2⟩
    · exact h.keyed hget''
  · have hpermanent : (p.put tier id conn').permanents.keys = p.permanents.keys := hkeys .permanent
    rw [hpermanent, PeerPool.put, lru_withPeers]
    exact h.lru
  · intro t
    rw [size_eq_keys, hkeys, ← size_eq_keys]
    exact h.capped t

end

theorem Housed.enroll (hnone : ∀ tier, (p.peers tier).get id = none)
    (hroom : (p.peers tier).size < c.capacity tier) (hbelongs : conn.Belongs id)
    (hephemeral : conn.ephemeral = decide (tier ≠ .permanent)) :
    Housed c ((p.put tier id conn).enlist tier id) := by
  have hout (t : Tier) : id ∉ (p.peers t).keys := get_eq_none.mp (hnone t)
  have hpeers : ((p.put tier id conn).enlist tier id).peers = (p.put tier id conn).peers := by
    funext t
    unfold enlist
    split <;> cases t <;> rfl
  have hkeys (t : Tier) : ((p.put tier id conn).peers t).keys =
      if t = tier then (p.peers tier).keys ++ [id] else (p.peers t).keys := by
    rw [PeerPool.put, peers_withPeers]
    split
    · rw [keys_set_of_not_mem (hout tier)]
    · rfl
  have hmem {t : Tier} {id' : String} (hin : id' ∈ ((p.put tier id conn).peers t).keys) :
      id' ∈ (p.peers t).keys ∨ t = tier ∧ id' = id := by
    rw [hkeys] at hin
    split at hin
    · rename_i heq
      rw [heq]
      exact (List.mem_append.mp hin).imp_right fun hlast => ⟨rfl, List.mem_singleton.mp hlast⟩
    · exact .inl hin
  refine ⟨?_, ?_, ?_, ?_⟩
  · intro t t' id' hin hin'
    rw [hpeers] at hin hin'
    rcases hmem hin with hold | ⟨rfl, rfl⟩
    · rcases hmem hin' with hold' | ⟨_, rfl⟩
      · exact h.apart hold hold'
      · exact absurd hold (hout t)
    · rcases hmem hin' with hold' | ⟨rfl, _⟩
      · exact absurd hold' (hout t')
      · rfl
  · intro t id' conn' hget
    rw [hpeers, get_put] at hget
    split at hget
    · rename_i heq
      obtain ⟨rfl, rfl⟩ := heq
      cases hget
      exact ⟨hbelongs, hephemeral⟩
    · exact h.keyed hget
  · have hpermanent : ((p.put tier id conn).enlist tier id).permanents.keys =
        if .permanent = tier then (p.peers tier).keys ++ [id] else p.permanents.keys := by
      have heq : ((p.put tier id conn).enlist tier id).permanents = (p.put tier id conn).peers .permanent :=
        congrFun hpeers .permanent
      rw [heq, hkeys]
      rfl
    rw [hpermanent]
    unfold enlist
    by_cases htier : tier = .permanent
    · subst htier
      rw [if_pos rfl, if_pos rfl]
      dsimp only
      rw [PeerPool.put, lru_withPeers]
      exact h.lru.append_right [id]
    · rw [if_neg htier, if_neg (Ne.symm htier), PeerPool.put, lru_withPeers]
      exact h.lru
  · intro t
    rw [hpeers, size_eq_keys, hkeys]
    split
    · rename_i heq
      rw [heq, List.length_append, ← size_eq_keys, List.length_singleton]
      exact hroom
    · rw [← size_eq_keys]
      exact h.capped t

theorem Housed.remove (hq : ∀ t, q.peers t = if t = tier then (p.peers tier).erase id else p.peers t)
    (hlru : q.lru = if tier = .permanent then p.lru.erase id else p.lru) : Housed c q := by
  have hkeys (t : Tier) : (q.peers t).keys =
      if t = tier then (p.peers tier).keys.erase id else (p.peers t).keys := by
    rw [hq]
    split
    · rw [keys_erase]
    · rfl
  have hsub {t : Tier} {id' : String} (hin : id' ∈ (q.peers t).keys) : id' ∈ (p.peers t).keys := by
    rw [hkeys] at hin
    split at hin
    · rename_i heq
      rw [heq]
      exact List.mem_of_mem_erase hin
    · exact hin
  refine ⟨fun hin hin' => h.apart (hsub hin) (hsub hin'), ?_, ?_, ?_⟩
  · intro t id' conn hget
    rw [hq] at hget
    split at hget
    · rename_i heq
      rw [get_erase] at hget
      split at hget
      · cases hget
      · exact heq ▸ h.keyed hget
    · exact h.keyed hget
  · have hpermanent : q.permanents.keys = if .permanent = tier then (p.peers tier).keys.erase id
        else p.permanents.keys := hkeys .permanent
    rw [hpermanent, hlru]
    by_cases htier : tier = .permanent
    · subst htier
      rw [if_pos rfl, if_pos rfl]
      exact h.lru.erase id
    · rw [if_neg htier, if_neg (Ne.symm htier)]
      exact h.lru
  · intro t
    refine le_trans ?_ (h.capped t)
    rw [size_eq_keys, hkeys, size_eq_keys]
    split
    · rename_i heq
      rw [heq]
      exact_mod_cast List.length_erase_le
    · exact le_rfl

end

theorem peers_expire (hget : (p.peers tier).get id = some conn) (t : Tier) :
    (p.expire tier id).peers t = if t = tier then (p.peers tier).erase id else p.peers t := by
  rw [← peers_withPeers, PeerPool.expire, hget]
  dsimp only
  split <;> cases t <;> rfl

theorem lru_expire (hget : (p.peers tier).get id = some conn) :
    (p.expire tier id).lru = if tier = .permanent then p.lru.erase id else p.lru := by
  rw [PeerPool.expire, hget]
  dsimp only [close]
  split
  · dsimp only
    rw [lru_withPeers]
  · rw [lru_withPeers]

end PeerPool

end Tourillon
