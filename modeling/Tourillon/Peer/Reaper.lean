import Tourillon.Peer.PoolCalls

namespace Tourillon

open PeerPool Dict List

namespace PeerPool

variable {c : PoolConfig} {p : PeerPool} {tier : Tier} {id : String} {conn : PeerConnection}

theorem size_expireAll {ids : List String} (hnodup : ids.Nodup) (hin : ∀ id ∈ ids, id ∈ (p.peers tier).keys) :
    ((ids.foldl (fun p => p.expire tier) p).peers tier).size + ids.length = (p.peers tier).size := by
  induction ids generalizing p with
  | nil => rfl
  | cons id ids ih =>
    obtain ⟨hout, hrest⟩ := nodup_cons.mp hnodup
    have hmem := hin id mem_cons_self
    obtain ⟨conn, hget⟩ := mem_keys.mp hmem
    have hsize := size_erase_of_mem hmem
    have hpeers := peers_expire hget tier
    rw [if_pos rfl] at hpeers
    have hkeys : ∀ id' ∈ ids, id' ∈ ((p.expire tier id).peers tier).keys := by
      intro id' hid'
      rw [hpeers, keys_erase]
      refine (mem_erase_of_ne ?_).mpr (hin id' (mem_cons_of_mem _ hid'))
      rintro rfl
      exact hout hid'
    have hstep := ih hrest hkeys
    rw [hpeers] at hstep
    rw [foldl_cons, length_cons]
    omega

theorem nodup_expired (c : PoolConfig) (p : PeerPool) (inactivity : PeerClient → ℚ) (tier : Tier) :
    (p.expired c inactivity tier).Nodup :=
  (filter_sublist.map Prod.fst).nodup (p.peers tier).nodup

theorem mem_expired {inactivity : PeerClient → ℚ} (h : id ∈ p.expired c inactivity tier) :
    id ∈ (p.peers tier).keys := (filter_sublist.map Prod.fst).subset h

theorem size_removeExpired (c : PoolConfig) (p : PeerPool) (inactivity : PeerClient → ℚ) :
    (p.removeExpired c inactivity).permanents.size + (p.expiredPermanents c inactivity).length = p.permanents.size ∧
      (p.removeExpired c inactivity).overflows.size + (p.expired c inactivity .overflow).length =
        p.overflows.size := by
  let first := (p.expiredPermanents c inactivity).foldl (fun p => p.expire .permanent) p
  let second := (p.expired c inactivity .overflow).foldl (fun p => p.expire .overflow) first
  have hthird (t : Tier) (ht : t ≠ .priority) : (p.removeExpired c inactivity).peers t = second.peers t :=
    peers_expireAll_of_ne ht (p.expired c inactivity .priority) second
  have hsecond (t : Tier) (ht : t ≠ .overflow) : second.peers t = first.peers t :=
    peers_expireAll_of_ne ht (p.expired c inactivity .overflow) first
  have hfirst (t : Tier) (ht : t ≠ .permanent) : first.peers t = p.peers t :=
    peers_expireAll_of_ne ht (p.expiredPermanents c inactivity) p
  have hpermanents : (first.peers .permanent).size + (p.expiredPermanents c inactivity).length =
      (p.peers .permanent).size := by
    have hall := size_expireAll (nodup_expired c p inactivity .permanent) fun id => mem_expired
    unfold first expiredPermanents
    split
    · rfl
    · exact hall
  have hoverflows : (second.peers .overflow).size + (p.expired c inactivity .overflow).length =
      (first.peers .overflow).size := by
    refine size_expireAll (nodup_expired c p inactivity .overflow) ?_
    intro id hid
    rw [hfirst .overflow (by decide)]
    exact mem_expired hid
  have hkept := (hthird .permanent (by decide)).trans (hsecond .permanent (by decide))
  have hleft := hthird .overflow (by decide)
  rw [← hkept] at hpermanents
  rw [← hleft, hfirst .overflow (by decide)] at hoverflows
  exact ⟨hpermanents, hoverflows⟩

theorem size_promoteWhile (inactivity : Nat → PeerClient → ℚ) (n : Nat) (h : Housed c p) :
    ((promoteWhile c inactivity n p).permanents.size : Int) =
      min (p.permanents.size + (min n p.overflows.size : Nat) : Int) c.maxSize := by
  have hcap : (p.permanents.size : Int) ≤ c.maxSize := h.capped .permanent
  induction n generalizing p with
  | zero =>
    unfold promoteWhile
    omega
  | succ n ih =>
    unfold promoteWhile
    split
    · rename_i hroom
      split
      · rename_i hempty
        have hsize : p.overflows.size = 0 := length_eq_zero_iff.mpr (argmin_eq_none.mp hempty)
        omega
      · rename_i promoteId peer hleast
        have hget : (p.peers .overflow).get promoteId = some peer := get_eq_some.mpr (argmin_mem hleast)
        have hstep := (follows_promote h hget hroom).1
        have hnone : promoteId ∉ p.permanents.keys := get_eq_none.mp (h.fits hget .permanent (by decide))
        have hpermanents : (p.promote promoteId peer).permanents.size = p.permanents.size + 1 :=
          size_set_of_not_mem hnone _
        have hoverflows : (p.promote promoteId peer).overflows.size + 1 = p.overflows.size :=
          size_erase_of_mem (mem_keys.mpr ⟨peer, hget⟩)
        rw [ih hstep (hstep.capped .permanent)]
        omega
    · omega

theorem reap_floor_iff (c : PoolConfig) {calls : List PoolCall} {p : PeerPool}
    (h : Machine.Along (step c) Allowed initial calls) (hp : p = calls.foldl (step c) initial)
    (idle : PeerClient → ℚ) (later : Nat → PeerClient → ℚ) :
    min c.minSize p.permanents.size ≤ (p.reap c idle later).permanents.size ↔ (c.minSize < p.permanents.size →
        c.minSize + (p.expired c idle .permanent).length + (p.expired c idle .overflow).length ≤
          p.permanents.size + p.overflows.size) := by
  have hhoused := (sound_run c h).1
  rw [← hp] at hhoused
  have hcap : (p.permanents.size : Int) ≤ c.maxSize := hhoused.capped .permanent
  obtain ⟨hpermanents, hoverflows⟩ := size_removeExpired c p idle
  have hafter : ((p.reap c idle later).permanents.size : Int) = _ :=
    size_promoteWhile later _ (follows_removeExpired hhoused idle).1
  rw [Nat.min_self] at hafter
  unfold expiredPermanents at hpermanents
  split at hpermanents
  · rw [length_nil] at hpermanents
    omega
  · omega

end PeerPool

namespace Sample

def lowFloor : PoolConfig := ⟨1, 2, 0, 0, 600, Int.ofNat_le.mpr (Nat.le_succ 1), le_rfl, onePlace.ttlPositive⟩

def bothReleased : List PoolCall :=
  [.acquire "a" false (some "x") true, .acquire "b" false (some "y") true, .release ⟨0, "a", "x"⟩,
    .release ⟨1, "b", "y"⟩]

theorem floor_missed : Machine.Along (step lowFloor) PeerPool.Allowed initial bothReleased ∧
      (bothReleased.foldl (step lowFloor) initial).permanents.size = 2 ∧
      ((bothReleased.foldl (step lowFloor) initial).reap lowFloor (fun _ => 600)
        fun _ _ => 600).permanents.size = 0 :=
  ⟨⟨trivial, trivial, by decide +kernel, by decide +kernel, trivial⟩, by decide +kernel, by decide +kernel⟩

theorem floor_kept : min lowFloor.minSize 2 ≤ ((bothReleased.foldl (step lowFloor) initial).reap lowFloor
      (fun client => if client.id = 0 then 600 else 0) fun _ _ => 600).permanents.size := by
  have hrun : Machine.Along (step lowFloor) PeerPool.Allowed initial bothReleased :=
    ⟨trivial, trivial, by decide +kernel, by decide +kernel, trivial⟩
  have hfloor := (reap_floor_iff lowFloor hrun rfl (fun client => if client.id = 0 then 600 else 0)
    fun _ _ => 600).mpr (by decide +kernel)
  have hsize : (bothReleased.foldl (step lowFloor) initial).permanents.size = 2 := by decide +kernel
  rw [hsize] at hfloor
  exact_mod_cast hfloor

end Sample

end Tourillon
