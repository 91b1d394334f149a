import Tourillon.Library.Machine
import Tourillon.Peer.PoolLeases

namespace Tourillon

open Leases Relation PeerConnection Dict PeerPool List

namespace PeerPool

variable {c : PoolConfig} {p q : PeerPool} {tier : Tier} {id : String} {conn conn' : PeerConnection}
  {client : PeerClient}

def Follows (c : PoolConfig) (p q : PeerPool) : Prop :=
  Housed c q ∧ ReflTransGen (Move PeerClient.id) p.book q.book

theorem Follows.trans {r : PeerPool} (h : Follows c p q) (h' : Follows c q r) : Follows c p r :=
  ⟨h'.1, h.2.trans h'.2⟩

def credit : Except PoolError PeerClient × PeerPool → PeerPool
  | (.ok client, p) => { p with acquired := client :: p.acquired }
  | (.error _, p) => p

theorem acquire_eq (c : PoolConfig) (p : PeerPool) (id : String) (priority : Bool) (bind : Option String)
    (connects : Bool) :
    (p.acquire c id priority bind connects).2 = credit (p.acquireLocked c id priority bind connects) := by
  unfold acquire
  rcases p.acquireLocked c id priority bind connects with ⟨_ | client, q⟩ <;> rfl

theorem Housed.same (h : Housed c p) (hpermanents : q.permanents = p.permanents)
    (hoverflows : q.overflows = p.overflows) (hpriority : q.priorityReserve = p.priorityReserve)
    (hlru : q.lru = p.lru) : Housed c q :=
  h.congr (peers_eq hpermanents hoverflows hpriority) (List.Perm.of_eq hlru)

theorem book_put (p : PeerPool) (tier : Tier) (id : String) (conn : PeerConnection) :
    (p.put tier id conn).book = { p.book with count := (p.put tier id conn).countOf } := by
  rw [book, put, next_withPeers, closed_withPeers, acquired_withPeers, released_withPeers]
  rfl

theorem Housed.countOf_put (h : Housed c p) (hget : (p.peers tier).get id = some conn)
    (hclient : client.peerId = id) {o : Option Int}
    (hrecord : ∀ x, conn'.recordOf x = if x = client then o else conn.recordOf x) :
    (p.put tier id conn').countOf = Function.update p.countOf client o := by
  funext x
  rw [PeerPool.countOf_put (h.fits hget)]
  rcases eq_or_ne x client with rfl | hne
  · rw [if_pos hclient, hrecord, if_pos rfl, Function.update_self]
  · rw [Function.update_of_ne hne, hrecord, if_neg hne]
    split
    · rename_i heq
      exact (h.countOf_eq hget heq).symm
    · rfl

theorem follows_failed (h : Housed c p) (id bind : String) :
    Follows c p ({ p with next := p.next + 1 }.close ⟨p.next, id, bind⟩) :=
  ⟨h.same rfl rfl rfl rfl, .single (.refuse rfl)⟩

theorem book_enlist (p : PeerPool) (tier : Tier) (id : String) : (p.enlist tier id).book = p.book := by
  unfold enlist
  split <;> rfl

theorem follows_create (tier : Tier) (h : Housed c p) (hnone : ∀ tier, (p.peers tier).get id = none)
    (hroom : (p.peers tier).size < c.capacity tier) (bind : String) (connects : Bool) :
    Follows c p (credit (p.create tier id bind connects)) := by
  cases connects with
  | false => exact follows_failed h id bind
  | true =>
    let r : PeerPool := { p with next := p.next + 1 }
    let client : PeerClient := ⟨p.next, id, bind⟩
    let conn : PeerConnection := ⟨id, client, 1, tier ≠ .permanent, ∅⟩
    have hpeers : r.peers = p.peers := peers_eq rfl rfl rfl
    have hr : Housed c r := h.same rfl rfl rfl rfl
    have hget (t : Tier) : (r.peers t).get id = none := by
      rw [hpeers]
      exact hnone t
    have hbelongs : conn.Belongs id := ⟨rfl, rfl, by rintro k r ⟨⟩⟩
    have hjoined : Housed c ((r.put tier id conn).enlist tier id) :=
      hr.enroll hget (hpeers ▸ hroom) hbelongs rfl
    have hcount : (r.put tier id conn).countOf = Function.update p.countOf client (some 1) := by
      funext x
      rw [countOf_put fun t _ => hget t]
      rcases eq_or_ne x client with rfl | hne
      · rw [if_pos rfl, Function.update_self]
        exact conn.recordOf_client
      · rw [Function.update_of_ne hne]
        split
        · rename_i heq
          rw [countOf, heq, findPeer_of_none hnone, recordOf_of_nil rfl]
          exact if_neg hne
        · rfl
    refine ⟨hjoined.same rfl rfl rfl rfl, .single ?_⟩
    have hbook : (credit (p.create tier id bind true)).book =
        { ((r.put tier id conn).enlist tier id).book with
          acquired := client :: ((r.put tier id conn).enlist tier id).book.acquired } := rfl
    rw [hbook, book_enlist, book_put, hcount]
    exact .enroll rfl

theorem follows_granted (h : Housed c q)
    (hmoves : ReflTransGen (Move PeerClient.id) p.book { q.book with acquired := client :: q.book.acquired }) :
    Follows c p (credit (.ok client, q)) := ⟨h.same rfl rfl rfl rfl, hmoves⟩

section

variable (h : Housed c p) (hget : (p.peers tier).get id = some conn)

include h hget

theorem Housed.countOf_renewed (hretired : conn.retiredClients.entries = []) {new : PeerClient}
    (hnew : new.peerId = id) : (p.put tier id { conn with client := new, refcount := 1 }).countOf =
      Function.update (Function.update p.countOf conn.client none) new (some 1) := by
  funext x
  have hrecord : { conn with client := new, refcount := 1 }.recordOf x = if x = new then some 1 else none :=
    recordOf_of_nil (by exact hretired) x
  rw [PeerPool.countOf_put (h.fits hget), hrecord]
  rcases eq_or_ne x new with rfl | hne
  · rw [if_pos hnew, if_pos rfl, Function.update_self]
  · rw [if_neg hne, Function.update_of_ne hne]
    rcases eq_or_ne x conn.client with rfl | hother
    · rw [Function.update_self, if_pos (h.keyed hget).1.owner]
    · rw [Function.update_of_ne hother]
      split
      · rename_i heq
        rw [h.countOf_eq hget heq, recordOf_of_nil hretired, if_neg hother]
      · rfl

theorem follows_refresh (bind : String) (connects : Bool) :
    Follows c p (credit (p.mayRefreshPeer tier id conn bind connects)) := by
  obtain ⟨hbelongs, hephemeral⟩ := h.keyed hget
  have hcurrent : p.countOf conn.client = some conn.refcount := by
    rw [h.countOf_eq hget hbelongs.owner, recordOf_client]
  unfold mayRefreshPeer
  split
  · refine follows_granted (h.put hget ⟨hbelongs.named, hbelongs.owner, hbelongs.retired⟩ rfl) (.single ?_)
    rw [book_put, h.countOf_put hget hbelongs.owner (conn.recordOf_counted _)]
    exact .grant hcurrent
  · split
    · exact ⟨h, .refl⟩
    · rename_i hretired
      rw [ne_eq, not_not] at hretired
      cases connects with
      | false => exact follows_failed h conn.peerId bind
      | true =>
        let r : PeerPool := { p with next := p.next + 1 }
        let new : PeerClient := ⟨p.next, conn.peerId, bind⟩
        have hpeers : r.peers = p.peers := peers_eq rfl rfl rfl
        have hr : Housed c r := h.same rfl rfl rfl rfl
        have hconnect : p.connect conn.peerId bind true = (some new, r) := rfl
        rw [← hpeers] at hget
        rw [hconnect]
        dsimp only
        split
        · refine follows_granted (hr.put hget ⟨hbelongs.named, hbelongs.named, ?_⟩ rfl) (.single ?_)
          · intro k retired hk
            rw [get_set, get_of_nil hretired] at hk
            split at hk
            · rename_i heq
              cases hk
              exact ⟨heq.symm, hbelongs.owner⟩
            · cases hk
          · have hrecord (x : PeerClient) := conn.recordOf_retired hretired new x 1 conn.refcount
            simp only [← conn.recordOf_of_nil hretired] at hrecord
            rw [book_put, hr.countOf_put hget hbelongs.named hrecord]
            exact .enroll rfl
        · rename_i hrefcount
          rw [ne_eq, not_not] at hrefcount
          rw [hrefcount] at hcurrent
          have hclosed : Housed c (r.close conn.client) := hr.same rfl rfl rfl rfl
          have heq : (r.close conn.client).peers = r.peers := peers_eq rfl rfl rfl
          rw [← heq] at hget
          refine follows_granted (hclosed.put hget ⟨hbelongs.named, hbelongs.named, hbelongs.retired⟩ rfl) ?_
          rw [book_put, hclosed.countOf_renewed hget hretired hbelongs.named]
          exact .tail (.single (.close hcurrent)) (.enroll rfl)

theorem follows_moveToEnd : Follows c p (p.moveToEnd tier id) := by
  unfold moveToEnd
  split
  · rename_i heq
    subst heq
    have hin : id ∈ p.lru := h.lru.mem_iff.mpr (mem_keys.mpr ⟨conn, hget⟩)
    refine ⟨h.congr (peers_eq rfl rfl rfl) ?_, .refl⟩
    exact (perm_append_singleton id _).trans (perm_cons_erase hin).symm
  · exact ⟨h, .refl⟩

end

theorem get_refresh {bind : String} {connects : Bool}
    (h : p.mayRefreshPeer tier id conn bind connects = (.ok client, q)) :
    ∃ conn', (q.peers tier).get id = some conn' := by
  have hput (r : PeerPool) (conn' : PeerConnection) : ((r.put tier id conn').peers tier).get id = some conn' := by
    rw [get_put, if_pos ⟨rfl, rfl⟩]
  unfold mayRefreshPeer at h
  split at h
  · cases h
    exact ⟨_, hput _ _⟩
  · split at h
    · cases h
    · split at h
      · cases h
      · split at h
        · cases h
          exact ⟨_, hput _ _⟩
        · cases h
          exact ⟨_, hput _ _⟩

section

variable (h : Housed c p) (hget : (p.peers tier).get id = some conn) (hunleased : conn.unleased = true)

include h hget hunleased

theorem follows_drop (hpeers : ∀ t, q.peers t = if t = tier then (p.peers tier).erase id else p.peers t)
    (hlru : q.lru = if tier = .permanent then p.lru.erase id else p.lru)
    (hbook : q.book = { p.book with count := q.countOf, closed := conn.client :: p.closed }) : Follows c p q := by
  obtain ⟨hidle, hretired⟩ := unleased_iff.mp hunleased
  have howner := (h.keyed hget).1.owner
  have hcurrent : p.countOf conn.client = some 0 := by rw [h.countOf_eq hget howner, recordOf_client, hidle]
  have hcount : q.countOf = Function.update p.countOf conn.client none := by
    funext x
    rw [countOf_without hpeers (h.fits hget)]
    rcases eq_or_ne x conn.client with rfl | hne
    · rw [Function.update_self, if_pos howner]
    · rw [Function.update_of_ne hne]
      split
      · rename_i heq
        rw [h.countOf_eq hget heq, recordOf_of_nil hretired, if_neg hne]
      · rfl
  refine ⟨h.remove hpeers hlru, .single ?_⟩
  rw [hbook, hcount]
  exact .close hcurrent

theorem follows_expire : Follows c p (p.expire tier id) := by
  refine follows_drop h hget hunleased (peers_expire hget) (lru_expire hget) ?_
  rw [book, expire, hget]
  cases tier <;> rfl

end

theorem of_idleLruPeer {victim : String} (h : p.idleLruPeer = some victim) :
    ∃ conn, p.permanents.get victim = some conn ∧ conn.unleased = true := by
  have hidle := find?_some h
  cases hget : p.permanents.get victim with
  | none =>
    rw [hget] at hidle
    cases hidle
  | some conn =>
    rw [hget] at hidle
    exact ⟨conn, rfl, hidle⟩

theorem follows_replace (h : Housed c p) (hnone : ∀ tier, (p.peers tier).get id = none) {victim : String}
    (hvictim : p.idleLruPeer = some victim) (bind : String) (connects : Bool) :
    Follows c p (credit ((p.evictPermanent victim).createPermanent id bind connects)) := by
  obtain ⟨conn, hget, hunleased⟩ := of_idleLruPeer hvictim
  replace hget : (p.peers .permanent).get victim = some conn := hget
  have hpeers := peers_expire hget
  have hevict : Follows c p (p.evictPermanent victim) := follows_expire h hget hunleased
  refine hevict.trans (follows_create .permanent hevict.1 ?_ ?_ bind connects)
  · intro t
    rw [evictPermanent, hpeers]
    split
    · rw [get_erase, hnone]
      exact ite_self _
    · exact hnone t
  · have hsize := size_erase_of_mem (mem_keys.mpr ⟨conn, hget⟩)
    have hcap := h.capped .permanent
    rw [evictPermanent, hpeers, if_pos rfl]
    omega

theorem follows_acquire (h : Housed c p) (id : String) (priority : Bool) (bind : Option String)
    (connects : Bool) : Follows c p (p.acquire c id priority bind connects).2 := by
  rw [acquire_eq]
  unfold acquireLocked
  cases bind with
  | none => exact ⟨h, .refl⟩
  | some bind =>
    dsimp only
    cases hfind : p.findPeer id with
    | some found =>
      obtain ⟨tier, conn⟩ := found
      have hrefresh := follows_refresh h (of_findPeer hfind) bind connects
      dsimp only
      rcases houtcome : p.mayRefreshPeer tier id conn bind connects with ⟨e | client, q⟩
      · rw [houtcome] at hrefresh
        exact hrefresh
      · rw [houtcome] at hrefresh
        obtain ⟨conn', hget⟩ := get_refresh houtcome
        have hpeers : (credit (.ok client, q)).peers = q.peers := peers_eq rfl rfl rfl
        have hmove : Follows c p ((credit (.ok client, q)).moveToEnd tier id) :=
          hrefresh.trans (follows_moveToEnd hrefresh.1 (hpeers ▸ hget))
        have hswap : credit (.ok client, q.moveToEnd tier id) =
            (credit (.ok client, q)).moveToEnd tier id := by
          unfold moveToEnd
          split <;> rfl
        rw [hswap]
        exact hmove
    | none =>
      have hnone := findPeer_eq_none hfind
      dsimp only
      split
      · rename_i hroom
        exact follows_create .permanent h hnone hroom bind connects
      · split
        · rename_i hroom
          exact follows_create .overflow h hnone (lt_of_lt_of_le hroom (le_max_left _ _)) bind connects
        · split
          · rename_i victim hvictim
            exact follows_replace h hnone hvictim bind connects
          · split
            · split
              · exact ⟨h, .refl⟩
              · rename_i hroom
                exact follows_create .priority h hnone (not_le.mp hroom) bind connects
            · exact ⟨h, .refl⟩

theorem follows_settle (h : Housed c p) (hget : (p.peers tier).get id = some conn) :
    Follows c p (p.settleEphemeral conn) := by
  unfold settleEphemeral
  split
  · rename_i hsettled
    obtain ⟨hephemeral, hunleased⟩ := Bool.and_eq_true_iff.mp hsettled
    obtain ⟨⟨rfl, _, _⟩, hkind⟩ := h.keyed hget
    have htier : tier ≠ .permanent := by
      rw [hkind] at hephemeral
      exact of_decide_eq_true hephemeral
    refine follows_drop h hget hunleased ?_ (if_neg htier).symm rfl
    intro t
    have hout (t' : Tier) (hne : t' ≠ tier) : (p.peers t').erase conn.peerId = p.peers t' :=
      erase_of_not_mem (get_eq_none.mp (h.fits hget t' hne))
    cases t with
    | permanent => exact (if_neg (Ne.symm htier)).symm
    | overflow =>
      split
      · rename_i heq
        exact heq ▸ rfl
      · rename_i hne
        exact hout .overflow hne
    | priority =>
      split
      · rename_i heq
        exact heq ▸ rfl
      · rename_i hne
        exact hout .priority hne
  · exact ⟨h, .refl⟩

theorem follows_returned (h : Housed c q) (hget : (q.peers tier).get id = some conn')
    (hmoves : ReflTransGen (Move PeerClient.id) p.book { q.book with released := client :: q.book.released }) :
    Follows c p { q.settleEphemeral conn' with released := client :: (q.settleEphemeral conn').released } := by
  let r : PeerPool := { q with released := client :: q.released }
  have hr : Housed c r := h.same rfl rfl rfl rfl
  have hpeers : r.peers = q.peers := peers_eq rfl rfl rfl
  have hsettle : Follows c r (r.settleEphemeral conn') := follows_settle hr (hpeers ▸ hget)
  have hswap : { q.settleEphemeral conn' with released := client :: (q.settleEphemeral conn').released } =
      r.settleEphemeral conn' := by
    unfold settleEphemeral
    split <;> rfl
  rw [hswap]
  exact ⟨hsettle.1, hmoves.trans hsettle.2⟩

theorem follows_release (h : Housed c p) (hbalanced : Balanced PeerClient.id p.book)
    (hleased : p.released.count client < p.acquired.count client) :
    Follows c p (p.release client.peerId client) := by
  have hcount : (p.acquired.count client : Int) - p.released.count client = (p.countOf client).getD 0 :=
    hbalanced.counts client
  cases hrecord : p.countOf client with
  | none =>
    rw [hrecord, Option.getD_none] at hcount
    omega
  | some n =>
    obtain ⟨⟨tier, conn⟩, hfind, hn⟩ := Option.bind_eq_some_iff.mp hrecord
    have hget := of_findPeer hfind
    have hbelongs := (h.keyed hget).1
    have hself (conn' : PeerConnection) :
        ((p.put tier client.peerId conn').peers tier).get client.peerId = some conn' := by
      rw [get_put, if_pos ⟨rfl, rfl⟩]
    unfold release releaseLocked
    rw [hfind]
    dsimp only
    split
    · rename_i hne
      have hretired := retired_of_recordOf hne hn
      unfold releaseRetired
      rw [hretired]
      dsimp only
      rw [if_neg (not_not.mpr rfl)]
      split
      · refine follows_returned (h.put hget ⟨hbelongs.named, hbelongs.owner, ?_⟩ rfl) (hself _) (.single ?_)
        · intro k retired hk
          rw [get_set] at hk
          split at hk
          · rename_i heq
            cases hk
            exact ⟨heq.symm, rfl⟩
          · exact hbelongs.retired k retired hk
        · rw [book_put, h.countOf_put hget rfl (recordOf_revised (o := some (n - 1)) hne hretired
            (by rw [get_set, if_pos rfl]; rfl) fun k hk => by rw [get_set, if_neg hk])]
          exact .giveBack hrecord
      · rename_i hlast
        rw [not_not] at hlast
        let conn' := { conn with retiredClients := conn.retiredClients.erase client.id }
        have hput : Housed c (p.put tier client.peerId conn') := by
          refine h.put hget ⟨hbelongs.named, hbelongs.owner, ?_⟩ rfl
          intro k retired hk
          rw [get_erase] at hk
          split at hk
          · cases hk
          · exact hbelongs.retired k retired hk
        have hpeers : ((p.put tier client.peerId conn').close client).peers =
            (p.put tier client.peerId conn').peers := peers_eq rfl rfl rfl
        have hrecord' := recordOf_revised (d := conn.retiredClients.erase client.id) (o := none)
          hne hretired (by rw [get_erase, if_pos rfl]; rfl) fun k hk => by rw [get_erase, if_neg hk]
        have hbook : ((p.put tier client.peerId conn').close client).book =
            { p.book with count := Function.update p.countOf client none, closed := client :: p.closed } := by
          show { (p.put tier client.peerId conn').book with
            closed := client :: (p.put tier client.peerId conn').closed } = _
          rw [book_put, h.countOf_put hget rfl hrecord', put, closed_withPeers]
        refine follows_returned (hput.same rfl rfl rfl rfl) (hpeers ▸ hself conn') ?_
        rw [hbook]
        have hgive : Move PeerClient.id p.book _ := .giveBack hrecord
        have hspent : Function.update p.countOf client (some (n - 1)) client = some 0 := by
          rw [Function.update_self, hlast]
        have hmoves := (ReflTransGen.single hgive).tail (.close hspent)
        rw [Function.update_idem] at hmoves
        exact hmoves
    · rename_i heq
      rw [not_not] at heq
      subst heq
      rw [conn.recordOf_client] at hn
      cases hn
      refine follows_returned (h.put hget ⟨hbelongs.named, hbelongs.owner, hbelongs.retired⟩ rfl) (hself _)
        (.single ?_)
      rw [book_put, h.countOf_put hget rfl (conn.recordOf_counted _)]
      exact .giveBack hrecord

theorem get_expire (h : (p.peers tier).get id = some conn) (t : Tier) (id' : String) :
    ((p.expire tier id).peers t).get id' = if t = tier ∧ id' = id then none else (p.peers t).get id' := by
  rw [peers_expire h]
  by_cases htier : t = tier
  · subst htier
    rw [if_pos rfl, get_erase]
    simp
  · simp [htier]

theorem peers_expire_of_ne {t : Tier} (h : t ≠ tier) (id : String) : (p.expire tier id).peers t = p.peers t := by
  cases hget : (p.peers tier).get id with
  | none => rw [expire, hget]
  | some conn => rw [peers_expire hget, if_neg h]

theorem peers_expireAll_of_ne {t : Tier} (h : t ≠ tier) (ids : List String) (p : PeerPool) :
    (ids.foldl (fun p => p.expire tier) p).peers t = p.peers t := by
  induction ids generalizing p with
  | nil => rfl
  | cons id ids ih => rw [foldl_cons, ih, peers_expire_of_ne h]

def Spare (tier : Tier) (ids : List String) (p : PeerPool) : Prop :=
  ∀ id ∈ ids, ∀ conn, (p.peers tier).get id = some conn → conn.unleased = true

theorem follows_expireAll (h : Housed c p) {ids : List String} (hspare : Spare tier ids p) :
    Follows c p (ids.foldl (fun p => p.expire tier) p) := by
  induction ids generalizing p with
  | nil => exact ⟨h, .refl⟩
  | cons id ids ih =>
    rw [foldl_cons]
    have hrest : Spare tier ids p := fun id hin => hspare id (mem_cons_of_mem _ hin)
    cases hget : (p.peers tier).get id with
    | none =>
      have hsame : p.expire tier id = p := by rw [expire, hget]
      rw [hsame]
      exact ih h hrest
    | some conn =>
      have hstep := follows_expire h hget (hspare id mem_cons_self conn hget)
      refine hstep.trans (ih hstep.1 ?_)
      intro id' hin conn' hget'
      rw [get_expire hget] at hget'
      split at hget'
      · cases hget'
      · exact hrest id' hin conn' hget'

theorem spare_expired (c : PoolConfig) (p : PeerPool) (inactivity : PeerClient → ℚ) (tier : Tier) :
    Spare tier (p.expired c inactivity tier) p := by
  intro id hin conn hget
  obtain ⟨e, he, rfl⟩ := mem_map.mp hin
  obtain ⟨hentry, hexpired⟩ := mem_filter.mp he
  rw [get_eq_some.mpr hentry] at hget
  cases hget
  exact (Bool.and_eq_true_iff.mp hexpired).1

theorem follows_removeExpired (h : Housed c p) (inactivity : PeerClient → ℚ) :
    Follows c p (p.removeExpired c inactivity) := by
  have hpermanents : Spare .permanent (p.expiredPermanents c inactivity) p := by
    unfold expiredPermanents
    split
    · rintro _ ⟨⟩
    · exact spare_expired c p inactivity .permanent
  have hfirst := follows_expireAll h hpermanents
  have hoverflows : Spare .overflow (p.expired c inactivity .overflow)
      ((p.expiredPermanents c inactivity).foldl (fun p => p.expire .permanent) p) := by
    intro id hin conn hget
    rw [peers_expireAll_of_ne (by decide)] at hget
    exact spare_expired c p inactivity .overflow id hin conn hget
  have hsecond := follows_expireAll hfirst.1 hoverflows
  have hpriorities : Spare .priority (p.expired c inactivity .priority)
      ((p.expired c inactivity .overflow).foldl (fun p => p.expire .overflow)
        ((p.expiredPermanents c inactivity).foldl (fun p => p.expire .permanent) p)) := by
    intro id hin conn hget
    rw [peers_expireAll_of_ne (by decide), peers_expireAll_of_ne (by decide)] at hget
    exact spare_expired c p inactivity .priority id hin conn hget
  have hthird := follows_expireAll hsecond.1 hpriorities
  exact (hfirst.trans hsecond).trans hthird

theorem follows_promote (h : Housed c p) (hget : p.overflows.get id = some conn)
    (hroom : p.permanents.size < c.maxSize) : Follows c p (p.promote id conn) := by
  let r : PeerPool := { p with overflows := p.overflows.erase id }
  let conn' := { conn with ephemeral := false }
  have hpeers (t : Tier) : r.peers t = if t = .overflow then (p.peers .overflow).erase id else p.peers t := by
    cases t <;> rfl
  replace hget : (p.peers .overflow).get id = some conn := hget
  have hr : Housed c r := h.remove hpeers rfl
  have hnone (t : Tier) : (r.peers t).get id = none := by
    rw [hpeers]
    split
    · rw [get_erase, if_pos rfl]
    · rename_i hne
      exact h.fits hget t hne
  obtain ⟨hnamed, howner, hretired⟩ := (h.keyed hget).1
  have hjoined : Housed c ((r.put .permanent id conn').enlist .permanent id) :=
    hr.enroll hnone hroom ⟨hnamed, howner, hretired⟩ rfl
  have hcount : (r.put .permanent id conn').countOf = p.countOf := by
    funext x
    rw [countOf_put fun t _ => hnone t]
    split
    · rename_i heq
      exact (h.countOf_eq hget heq).symm
    · rename_i hne
      rw [countOf_without hpeers (h.fits hget), if_neg hne]
  refine ⟨hjoined, ?_⟩
  have hbook : (p.promote id conn).book = { p.book with count := (r.put .permanent id conn').countOf } := rfl
  rw [hbook, hcount]
  exact .refl

theorem follows_promoteWhile (inactivity : Nat → PeerClient → ℚ) (n : Nat) (h : Housed c p) :
    Follows c p (promoteWhile c inactivity n p) := by
  induction n generalizing p with
  | zero => exact ⟨h, .refl⟩
  | succ n ih =>
    unfold promoteWhile
    split
    · rename_i hroom
      split
      · exact ⟨h, .refl⟩
      · rename_i promoteId peer hleast
        have hentry := argmin_mem hleast
        have hstep := follows_promote h (get_eq_some.mpr hentry) hroom
        exact hstep.trans (ih hstep.1)
    · exact ⟨h, .refl⟩

theorem follows_reap (h : Housed c p) (idle : PeerClient → ℚ) (later : Nat → PeerClient → ℚ) :
    Follows c p (p.reap c idle later) := by
  have hexpired := follows_removeExpired h idle
  exact hexpired.trans (follows_promoteWhile later _ hexpired.1)

theorem follows_step (h : Housed c p) (hbalanced : Balanced PeerClient.id p.book) {call : PoolCall}
    (hallowed : p.Allowed call) : Follows c p (p.step c call) := by
  cases call with
  | acquire peerId priority bind connects => exact follows_acquire h peerId priority bind connects
  | release client => exact follows_release h hbalanced hallowed
  | reap idle later => exact follows_reap h idle later

theorem balanced_initial : Balanced PeerClient.id initial.book where
  known := by rintro client n ⟨⟩
  counts _ := rfl
  gone := by rintro client ⟨⟩

theorem sound_run (c : PoolConfig) {calls : List PoolCall} (h : Machine.Along (step c) Allowed initial calls) :
    Housed c (calls.foldl (step c) initial) ∧ Balanced PeerClient.id (calls.foldl (step c) initial).book := by
  refine Machine.Along.invariant (I := fun p => Housed c p ∧ Balanced PeerClient.id p.book) ?_ h
    ⟨housed_initial c, balanced_initial⟩
  rintro p call hallowed ⟨hhoused, hbalanced⟩
  have hstep := follows_step hhoused hbalanced hallowed
  exact ⟨hstep.1, hbalanced.moves hstep.2⟩

theorem leases_exact (c : PoolConfig) {calls : List PoolCall} {p : PeerPool}
    (h : Machine.Along (step c) Allowed initial calls) (hp : p = calls.foldl (step c) initial) :
    (∀ id tier tier', id ∈ (p.peers tier).keys → id ∈ (p.peers tier').keys → tier = tier') ∧
    p.lru.Perm p.permanents.keys ∧ (p.permanents.size ≤ c.maxSize ∧ p.overflows.size ≤ max c.maxOverflow 0 ∧
      p.priorityReserve.size ≤ c.prioritySize) ∧
    (∀ tier id conn client n, (p.peers tier).get id = some conn → conn.recordOf client = some n →
      n = (p.acquired.count client : Int) - p.released.count client) ∧
    (∀ client, (∀ tier id conn, (p.peers tier).get id = some conn → conn.recordOf client = none) →
      p.acquired.count client = p.released.count client) ∧
    ∀ client ∈ p.closed, p.acquired.count client = p.released.count client := by
  obtain ⟨hhoused, hbalanced⟩ := sound_run c h
  rw [← hp] at hhoused hbalanced
  have hcount (client : PeerClient) :
      (p.acquired.count client : Int) - p.released.count client = (p.countOf client).getD 0 :=
    hbalanced.counts client
  have hzero (client : PeerClient) (hnone : p.countOf client = none) :
      p.acquired.count client = p.released.count client := by
    have heq := hcount client
    rw [hnone] at heq
    exact_mod_cast Int.sub_eq_zero.mp heq
  refine ⟨fun _ _ _ => hhoused.apart, hhoused.lru, ⟨hhoused.capped .permanent, hhoused.capped .overflow,
    hhoused.capped .priority⟩, ?_, ?_, fun client hin => hzero client (hbalanced.gone client hin).2⟩
  · intro tier id conn client n hget hrecord
    have howner := (hhoused.keyed hget).1.owner_of_record hrecord
    rw [hcount, hhoused.countOf_eq hget howner, hrecord]
    rfl
  · intro client hnone
    refine hzero client (Option.bind_eq_none_iff.mpr ?_)
    rintro ⟨tier, conn⟩ hfind
    exact hnone tier _ conn (of_findPeer hfind)

end PeerPool

namespace Sample

def onePlace : PoolConfig := ⟨1, 1, 1, 1, 600, le_rfl, Int.one_nonneg, by decide⟩

def retiredAcquire : List PoolCall :=
  [.acquire "a" false (some "x") true, .acquire "b" false (some "z") true, .acquire "a" false (some "y") true,
    .release ⟨1, "b", "z"⟩, .release ⟨0, "a", "x"⟩]

theorem retired_leases : (retiredAcquire.foldl (step onePlace) initial).closed = [⟨0, "a", "x"⟩, ⟨1, "b", "z"⟩] ∧
      (retiredAcquire.foldl (step onePlace) initial).lru.Perm ["a"] := by
  have hrun : Machine.Along (step onePlace) PeerPool.Allowed initial retiredAcquire :=
    ⟨trivial, trivial, trivial, by decide +kernel, by decide +kernel, trivial⟩
  obtain ⟨_, hlru, _⟩ := leases_exact onePlace hrun rfl
  have hkeys : (retiredAcquire.foldl (step onePlace) initial).permanents.keys = ["a"] := by decide +kernel
  exact ⟨by decide +kernel, hkeys ▸ hlru⟩

end Sample

end Tourillon
