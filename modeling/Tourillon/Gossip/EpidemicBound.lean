import Tourillon.Gossip.Acceptance
import Tourillon.Gossip.Epidemic
import Tourillon.Library.Forest
import Tourillon.Library.Sequence

namespace Tourillon

open Sequence Forest Prog GossipProcess TopologyManager GossipCluster List

def Member.stamp (m : Member) : String × Nat := (m.nodeId, m.epoch)

def Acceptance.marks (a : Acceptance) : List (Nat × Member) := a.accepted.map fun m => (a.push, m)

def GossipProcess.marks (q : GossipProcess) : List (Nat × Member) :=
  q.handed ++ q.acceptances.flatMap Acceptance.marks

structure Known (t : TopologyManager) (m : Member) : Prop where
  found : ∃ u, t.registry.get m.nodeId = some u ∧ m.epoch ≤ u.epoch

structure Once (q : GossipProcess) : Prop where
  stamps : (q.marks.map fun e => e.2.stamp).Nodup
  known : ∀ e ∈ q.marks, Known q.manager e.2

section Once

variable {q q' : GossipProcess}

theorem Once.shrink (h : Once q) (hmarks : q'.marks.Subperm q.marks)
    (hknown : ∀ m, Known q.manager m → Known q'.manager m) : Once q' := by
  obtain ⟨kept, hperm, hsub⟩ := hmarks
  refine ⟨?_, fun e he => hknown e.2 (h.known e (hsub.subset (hperm.symm.subset he)))⟩
  exact (hperm.map _).nodup_iff.mp (h.stamps.sublist (hsub.map _))

theorem Once.grow (h : Once q) {i : Nat} {m : Member} (hmarks : q'.marks.Perm ((i, m) :: q.marks))
    (hnew : q.manager.registry.Newer m) (hm : Known q'.manager m)
    (hknown : ∀ m, Known q.manager m → Known q'.manager m) : Once q' := by
  have hfresh : m.stamp ∉ q.marks.map fun e => e.2.stamp := by
    intro hmem
    obtain ⟨e, he, hstamp⟩ := mem_map.mp hmem
    obtain ⟨hid, hepoch⟩ := Prod.mk.inj hstamp
    obtain ⟨u, hu, hle⟩ := (h.known e he).found
    rw [hid] at hu
    have hlt := hnew.above u hu
    omega
  refine ⟨(hmarks.map _).nodup_iff.mpr (nodup_cons.mpr ⟨hfresh, h.stamps⟩), ?_⟩
  intro e he
  rcases mem_cons.mp (hmarks.subset he) with rfl | hold
  · exact hm
  · exact hknown e.2 (h.known e hold)

theorem Once.unmarked (h : Once q) (hmarks : q'.marks = q.marks)
    (hknown : ∀ m, Known q.manager m → Known q'.manager m) : Once q' :=
  h.shrink (hmarks ▸ List.Subperm.refl _) hknown

end Once

section Manager

variable [Digests]

theorem known_invariant (m : Member) : TopologyManager.Invariant fun t => Known t m where
  register t new hnew h := by
    obtain ⟨u, hu, hle⟩ := h.found
    refine ⟨?_⟩
    dsimp only
    by_cases hid : m.nodeId = new.nodeId
    · rw [hid] at hu ⊢
      have hlt := hnew.above u hu
      exact ⟨new, OrderedMap.get_insert_self .., by omega⟩
    · rw [OrderedMap.get_insert_of_ne _ _ hid]
      exact ⟨u, hu, hle⟩
  bump t n h := ⟨h.found⟩
  cache t found hfound h := ⟨h.found⟩

theorem applyMember_changed {m : Member} {t t' : TopologyManager}
    (h : applyMember m t = (.ok true, t')) : t.registry.Newer m ∧ Known t' m := by
  rw [applyMember] at h
  obtain ⟨changed, t₁, happly, hrest⟩ := of_bind_ok h
  obtain ⟨_, t₂, hnotify, hdone⟩ := of_bind_ok hrest
  cases hdone
  rcases apply_cases m t with ⟨hnew, _⟩ | ⟨_, hrun⟩
  · refine ⟨hnew, ?_⟩
    have hregistry := apply_registry m t
    rw [happly, MemberRegistry.replaced, if_pos hnew.newer] at hregistry
    have hknown : Known t₁ m := ⟨m, by rw [hregistry]; exact OrderedMap.get_insert_self .., le_rfl⟩
    obtain ⟨t₃, hrun, hkept⟩ := (known_invariant m).notify (true = true) hknown
    cases hrun.symm.trans hnotify
    exact hkept
  · rw [hrun] at happly
    cases happly

end Manager

section Ledger

variable (c : GossipCluster) (p : String)

def GossipProcess.outstanding (q : GossipProcess) (i : Nat) : Nat :=
  (q.relays.map fun r => if r.push = i then r.rest.length else 0).sum

def answered (sent : List SentPush) (p : String) (i : Nat) : Nat :=
  sent.countP fun e => e.request.sender = p ∧ e.cause = some i

def Addressed (sent : List SentPush) (i : Nat) (P : GossipPush → Prop) : Prop :=
  ∃ e, sent[i]? = some e ∧ e.target = p ∧ P e.request

structure Tended (sent : List SentPush) (q : GossipProcess) : Prop where
  accepting : ∀ a ∈ q.acceptances, Addressed p sent a.push fun request =>
    a.request = request ∧ (∀ m ∈ a.accepted, m ∈ request.members) ∧ ∀ m ∈ a.rest, m ∈ request.members
  handing : ∀ x ∈ q.handed, Addressed p sent x.1 fun request => x.2 ∈ request.members
  relaying : ∀ r ∈ q.relays, Addressed p sent r.push fun request =>
    r.hopLimit + 1 = request.hopLimit ∧ 1 ≤ r.hopLimit
  ledger : ∀ i, answered sent p i + c.fanOut * q.outstanding i ≤
    c.fanOut * q.handed.countP fun x => x.1 = i

structure Moved (sent : List SentPush) (next : GossipProcess × List SentPush) : Prop where
  once : Once next.1
  tended : Tended c p (sent ++ next.2) next.1
  sender : ∀ e ∈ next.2, e.request.sender = p
  modest : ∀ e ∈ next.2, 1 ≤ e.request.hopLimit ∧
    (1 < e.request.hopLimit → e.request.members.length = 1)
  caused : ∀ e ∈ next.2, ∀ i ∈ e.cause, Addressed p sent i fun request =>
    e.request.hopLimit + 1 = request.hopLimit

end Ledger

section Moves

variable {c : GossipCluster} {p : String} {sent : List SentPush} {q q' : GossipProcess} {i : Nat}
  {new : List SentPush} {r : RelayTask} {before after : List Acceptance} {a : Acceptance} {task : Nat}

theorem Addressed.append {P : GossipPush → Prop} (h : Addressed p sent i P) (new : List SentPush) :
    Addressed p (sent ++ new) i P := by
  obtain ⟨e, he, hrest⟩ := h
  refine ⟨e, ?_, hrest⟩
  rw [List.getElem?_append_left (List.getElem?_eq_some_iff.mp he).1]
  exact he

theorem Moved.silent (honce : Once q') (htended : Tended c p sent q') : Moved c p sent (q', []) where
  once := honce
  tended := by
    rw [append_nil]
    exact htended
  sender := nofun
  modest := nofun
  caused := nofun

theorem Tended.append (h : Tended c p sent q) (hnew : ∀ i, answered new p i = 0) : Tended c p (sent ++ new) q where
  accepting a ha := (h.accepting a ha).append new
  handing x hx := (h.handing x hx).append new
  relaying r hr := (h.relaying r hr).append new
  ledger i := by
    have hcount : answered (sent ++ new) p i = answered sent p i := by
      rw [answered, countP_append]
      exact congrArg (answered sent p i + ·) (hnew i)
    rw [hcount]
    exact h.ledger i

theorem Moved.announced (honce : Once q') (htended : Tended c p sent q')
    (hsender : ∀ e ∈ new, e.request.sender = p) (hroots : ∀ e ∈ new, e.cause = none)
    (hmodest : ∀ e ∈ new, 1 ≤ e.request.hopLimit ∧ (1 < e.request.hopLimit → e.request.members.length = 1)) :
    Moved c p sent (q', new) where
  once := honce
  tended := by
    refine htended.append fun i => countP_eq_zero.mpr ?_
    intro e he
    simp [hroots e he]
  sender := hsender
  modest := hmodest
  caused e he i hi := by
    rw [hroots e he] at hi
    cases hi

theorem outstanding_split {before after : List RelayTask} (h : q.relays = before ++ r :: after) (i : Nat) :
    q.outstanding i = (before.map fun r => if r.push = i then r.rest.length else 0).sum +
      ((if r.push = i then r.rest.length else 0) +
        (after.map fun r => if r.push = i then r.rest.length else 0).sum) := by
  rw [outstanding, h, map_append, sum_append, map_cons, sum_cons]

theorem marks_split (h : q.acceptances = before ++ a :: after) :
    q.marks.Perm (a.marks ++ (q.handed ++ (before ++ after).flatMap Acceptance.marks)) := by
  rw [marks, h, flatMap_append, flatMap_append, flatMap_cons]
  refine (List.Perm.append_left _ (perm_append_comm_assoc ..)).trans ?_
  exact perm_append_comm_assoc ..

theorem marks_replace {a' : Acceptance} {l : List (Nat × Member)} (hhanded : q'.handed = q.handed)
    (h : q.acceptances = before ++ a :: after) (h' : q'.acceptances = before ++ a' :: after)
    (ha : a'.marks = a.marks ++ l) : q'.marks.Perm (l ++ q.marks) := by
  have hsplit := marks_split h'
  rw [ha, hhanded, append_assoc] at hsplit
  exact hsplit.trans ((perm_append_comm_assoc ..).trans (List.Perm.append_left _ (marks_split h).symm))

theorem moved_receive (honce : Once q) (h : Tended c p sent q) {e : SentPush} (he : sent[i]? = some e)
    (htarget : e.target = p) : Moved c p sent (q.receive i e.request, []) := by
  rw [receive]
  split
  · exact .silent honce h
  · rename_i request hdocument
    obtain rfl : e.request = request := by
      rw [GossipPush.fromDocument] at hdocument
      obtain ⟨_, _, hdone⟩ := Exceptional.bind_eq_ok.mp hdocument
      exact Except.ok.inj hdone
    refine .silent (honce.unmarked ?_ fun _ => id) ⟨?_, h.handing, h.relaying, h.ledger⟩
    · simp [marks, Acceptance.marks]
    · intro a ha
      rcases mem_append.mp ha with hold | hnew
      · exact h.accepting a hold
      · obtain rfl := mem_singleton.mp hnew
        exact ⟨e, he, htarget, rfl, nofun, fun _ => id⟩

theorem relay_tended {sender : String} {hopLimit : Nat} {members : List Member} (h : Tended c p sent q)
    (haddressed : Addressed p sent i fun request =>
      hopLimit + 1 = request.hopLimit ∧ (∀ m ∈ members, m ∈ request.members)) : Tended c p sent
      (relay { q with handed := q.handed ++ members.map fun m => (i, m) } i members hopLimit sender) := by
  obtain ⟨e, he, htarget, hhop, hmembers⟩ := haddressed
  have hcount (j : Nat) : (q.handed ++ members.map fun m => (i, m)).countP (fun x => x.1 = j) =
      q.handed.countP (fun x => x.1 = j) + if i = j then members.length else 0 := by
    rw [countP_append, countP_map]
    congr 1
    split
    · rename_i hij
      rw [countP_eq_length.mpr]
      simp [hij]
    · rename_i hij
      rw [countP_eq_zero.mpr]
      simp [hij]
  have hhanding : ∀ x ∈ q.handed ++ members.map fun m => (i, m),
      Addressed p sent x.1 fun request => x.2 ∈ request.members := by
    intro x hx
    rcases mem_append.mp hx with hold | hnew
    · exact h.handing x hold
    · obtain ⟨m, hm, rfl⟩ := mem_map.mp hnew
      exact ⟨e, he, htarget, hmembers m hm⟩
  have hkept : Tended c p sent { q with handed := q.handed ++ members.map fun m => (i, m) } := by
    refine ⟨h.accepting, hhanding, h.relaying, ?_⟩
    intro j
    rw [hcount, Nat.mul_add]
    exact (h.ledger j).trans (Nat.le_add_right _ _)
  rw [relay]
  split
  · exact hkept
  · rename_i hlive
    split
    · exact hkept
    · refine ⟨h.accepting, hhanding, ?_, ?_⟩
      · intro r hr
        rcases mem_append.mp hr with hold | hnew
        · exact h.relaying r hold
        · obtain rfl := mem_singleton.mp hnew
          exact ⟨e, he, htarget, hhop, Nat.le_of_not_lt fun hlt => hlive (.inl hlt)⟩
      · intro j
        dsimp only
        rw [hcount, outstanding, map_append, sum_append, Nat.mul_add, Nat.mul_add, ← Nat.add_assoc]
        refine Nat.add_le_add (h.ledger j) (Nat.mul_le_mul_left _ ?_)
        simp

theorem moved_finish (honce : Once q) (h : Tended c p sent q) (ha : q.acceptances[task]? = some a) (wired : Bool) :
    Moved c p sent (finish { q with acceptances := q.acceptances.eraseIdx task } wired a, []) := by
  obtain ⟨before, after, hsplit, _, herase⟩ := split_at_getElem? ha
  have hmarks := marks_split hsplit
  obtain ⟨e, he, htarget, hrequest, haccepted, _⟩ := h.accepting a (mem_of_getElem? ha)
  have herased : Tended c p sent { q with acceptances := q.acceptances.eraseIdx task } :=
    ⟨fun a' ha' => h.accepting a' (mem_of_mem_eraseIdx ha'), h.handing, h.relaying, h.ledger⟩
  rw [finish]
  split
  · rename_i hrelayed
    refine .silent (honce.shrink ?_ ?_) (relay_tended herased ⟨e, he, htarget, ?_, haccepted⟩)
    · have hsame : ∀ q' : GossipProcess, ∀ i members hop sender,
          (q'.relay i members hop sender).marks = q'.marks := by
        intro q' i members hop sender
        rw [relay]
        split
        · rfl
        · split
          · rfl
          · rfl
      rw [hsame, marks, herase, append_assoc]
      exact ((perm_append_comm_assoc ..).trans hmarks.symm).subperm
    · intro m hm
      rw [relay]
      split
      · exact hm
      · split
        · exact hm
        · exact hm
    · have hhop := hrelayed.2.1
      rw [hrequest] at hhop ⊢
      omega
  · refine .silent (honce.shrink ?_ fun _ => id) herased
    rw [marks, herase]
    exact (sublist_append_right ..).subperm.trans hmarks.symm.subperm

theorem GossipCluster.targets_le {eligible : List Member} {targets : List String} (hp : p ∈ c.nodes)
    (h : (c.config p).samples eligible targets = true) : targets.length ≤ c.fanOut := by
  simp only [GossipConfig.samples, Bool.and_eq_true, decide_eq_true_iff] at h
  rw [h.2, GossipConfig.fanOut]
  exact (min_le_left _ _).trans ((min_le_right _ _).trans (Finset.le_sup (f := fun p => (c.config p).maxFanOut) hp))

theorem answered_sendPushes (m : Member) (hopLimit cause : Nat) (targets : List String) (i : Nat) :
    answered (sendPushes p m hopLimit (some cause) targets) p i =
      if cause = i then targets.length else 0 := by
  rw [answered, sendPushes, countP_map]
  split
  · rename_i hcause
    rw [countP_eq_length.mpr]
    simp [hcause]
  · rename_i hcause
    rw [countP_eq_zero.mpr]
    simp [hcause]

theorem moved_pushRelay (hp : p ∈ c.nodes) (honce : Once q) (h : Tended c p sent q)
    (hr : q.relays[task]? = some r) (targets : List String) : Moved c p sent (c.pushRelay p q task r targets) := by
  obtain ⟨before, after, hsplit, hset, herase⟩ := split_at_getElem? hr
  have hrelaying := h.relaying r (mem_of_getElem? hr)
  rw [pushRelay]
  cases hrest : r.rest with
  | nil =>
    refine .silent (honce.unmarked rfl fun _ => id) ⟨h.accepting, h.handing, ?_, ?_⟩
    · intro r' hr'
      exact h.relaying r' (mem_of_mem_eraseIdx hr')
    · intro i
      have hledger := h.ledger i
      rw [outstanding_split hsplit, hrest] at hledger
      rw [outstanding, herase, map_append, sum_append]
      simpa using hledger
  | cons m rest =>
    dsimp only
    split
    · rename_i hsampled
      have hlength := targets_le hp hsampled
      refine ⟨honce.unmarked rfl fun _ => id, ⟨?_, ?_, ?_, ?_⟩, ?_, ?_, ?_⟩
      · exact fun a ha => (h.accepting a ha).append _
      · exact fun x hx => (h.handing x hx).append _
      · intro r' hr'
        rcases mem_or_eq_of_mem_set hr' with hold | rfl
        · exact (h.relaying r' hold).append _
        · exact hrelaying.append _
      · intro i
        have hledger := h.ledger i
        rw [outstanding_split hsplit, hrest] at hledger
        rw [outstanding_split (hset _)]
        rw [answered, countP_append, ← answered, ← answered, answered_sendPushes]
        split at hledger
        · rename_i hpush
          rw [if_pos hpush, if_pos hpush]
          have hone (x y z : Nat) : c.fanOut * (x + (y + 1 + z)) = c.fanOut * (x + (y + z)) + c.fanOut := by
            ring
          rw [length_cons, hone] at hledger
          dsimp only
          omega
        · rename_i hpush
          rw [if_neg hpush, if_neg hpush]
          exact hledger
      · intro e he
        obtain ⟨target, _, rfl⟩ := mem_map.mp he
        rfl
      · intro e he
        obtain ⟨target, _, rfl⟩ := mem_map.mp he
        obtain ⟨_, _, _, _, hpositive⟩ := hrelaying
        exact ⟨hpositive, fun _ => rfl⟩
      · intro e he i hi
        obtain ⟨target, _, rfl⟩ := mem_map.mp he
        obtain rfl := Option.some.inj hi
        obtain ⟨e', he', htarget, hhop, _⟩ := hrelaying
        exact ⟨e', he', htarget, hhop⟩
    · exact .silent honce h

section Calls

variable [Digests]

theorem moved_apply (honce : Once q) (h : Tended c p sent q) {task : Nat} {a : Acceptance}
    (ha : q.acceptances[task]? = some a) : Moved c p sent (q.applyNext task a, []) := by
  obtain ⟨before, after, hsplit, hset, herase⟩ := split_at_getElem? ha
  have hmarks := marks_split hsplit
  obtain ⟨e, he, htarget, hrequest, haccepted, hrest⟩ := h.accepting a (mem_of_getElem? ha)
  rw [applyNext]
  cases hnext : a.rest with
  | nil => exact .silent honce h
  | cons m rest =>
    rw [hnext] at hrest
    obtain ⟨hm, hrest⟩ := forall_mem_cons.mp hrest
    have hknown {u : Member} (hu : Known q.manager u) :
        Known (applyMember m q.manager).2 u := (known_invariant u).applyMember m hu
    rcases hrun : applyMember m q.manager with ⟨r, t⟩
    rw [hrun] at hknown
    dsimp only
    rw [hrun]
    cases r with
    | error _ =>
      refine .silent (honce.shrink ?_ fun u => hknown) ⟨?_, h.handing, h.relaying, h.ledger⟩
      · rw [marks, herase]
        exact (sublist_append_right ..).subperm.trans hmarks.symm.subperm
      · intro a' ha'
        exact h.accepting a' (mem_of_mem_eraseIdx ha')
    | ok changed =>
      refine .silent ?_ ⟨?_, h.handing, h.relaying, h.ledger⟩
      · cases changed with
        | false =>
          refine honce.shrink (List.Perm.subperm ?_) fun u => hknown
          exact marks_replace (l := []) rfl hsplit (hset _) (append_nil _).symm
        | true =>
          obtain ⟨hnew, hfound⟩ := applyMember_changed hrun
          refine honce.grow (marks_replace (l := [(a.push, m)]) rfl hsplit (hset _) ?_) hnew hfound
            fun u => hknown
          exact map_append
      · intro a' ha'
        rcases mem_or_eq_of_mem_set ha' with hold | rfl
        · exact h.accepting a' hold
        · refine ⟨e, he, htarget, hrequest, ?_, hrest⟩
          dsimp only
          split
          · intro u hu
            rcases mem_append.mp hu with hu | hu
            · exact haccepted u hu
            · rw [mem_singleton.mp hu]
              exact hm
          · exact haccepted

theorem moved (hp : p ∈ c.nodes) (honce : Once q) (h : Tended c p sent q) (move : GossipMove) :
    Moved c p sent (c.move p sent q move) := by
  cases move with
  | call call =>
    refine .silent (honce.unmarked rfl ?_) ⟨h.accepting, h.handing, h.relaying, h.ledger⟩
    exact fun m hm => (known_invariant m).run call hm
  | engine running =>
    refine .silent (honce.unmarked rfl fun _ => id) ?_
    cases running with
    | true => exact ⟨h.accepting, h.handing, h.relaying, h.ledger⟩
    | false =>
      refine ⟨h.accepting, h.handing, nofun, ?_⟩
      intro i
      exact (Nat.add_le_add_left (Nat.zero_le _) _).trans (h.ledger i)
  | announce m =>
    exact .silent (honce.unmarked rfl fun _ => id) ⟨h.accepting, h.handing, h.relaying, h.ledger⟩
  | hot targets =>
    rw [move, pushHot]
    split
    · exact .silent honce h
    · split
      · apply Moved.announced
        · exact honce.unmarked rfl fun _ => id
        · exact ⟨h.accepting, h.handing, h.relaying, h.ledger⟩
        · intro e he
          obtain ⟨target, _, rfl⟩ := mem_map.mp he
          rfl
        · intro e he
          obtain ⟨target, _, rfl⟩ := mem_map.mp he
          rfl
        · intro e he
          obtain ⟨target, _, rfl⟩ := mem_map.mp he
          exact ⟨(c.config p).hopPositive, fun _ => rfl⟩
      · exact .silent honce h
  | satisfyWanted target wanted =>
    rw [move]
    split
    · exact .silent honce h
    · refine .announced honce h ?_ ?_ ?_
      · intro e he
        rw [mem_singleton.mp he]
      · intro e he
        rw [mem_singleton.mp he]
      · intro e he
        rw [mem_singleton.mp he]
        exact ⟨le_rfl, fun hlt => absurd hlt (lt_irrefl _)⟩
  | receive push =>
    rw [move]
    split
    · exact .silent honce h
    · rename_i e he
      split
      · rename_i htarget
        exact moved_receive honce h he htarget
      · exact .silent honce h
  | apply task =>
    rw [move]
    split
    · exact .silent honce h
    · rename_i a ha
      exact moved_apply honce h ha
  | finish task =>
    rw [move]
    split
    · exact .silent honce h
    · rename_i a ha
      split
      · exact moved_finish honce h ha (c.wired p)
      · exact .silent honce h
  | relay task targets =>
    rw [move]
    split
    · exact .silent honce h
    · rename_i r hr
      exact moved_pushRelay hp honce h hr targets

end Calls

end Moves

structure Contained (c : GossipCluster) (s : Epidemic) : Prop where
  once : ∀ p, Once (s.processes p)
  tended : ∀ p, Tended c p s.sent (s.processes p)
  modest : ∀ e ∈ s.sent, 1 ≤ e.request.hopLimit ∧ (1 < e.request.hopLimit → e.request.members.length = 1)
  caused : ∀ e ∈ s.sent, ∀ i ∈ e.cause, Addressed e.request.sender s.sent i fun request =>
    e.request.hopLimit + 1 = request.hopLimit

theorem contained_boot (c : GossipCluster) : Contained c ⟨fun _ => .boot, []⟩ where
  once _ := ⟨nodup_nil, nofun⟩
  tended _ := ⟨nofun, nofun, nofun, fun _ => by simp [answered, outstanding, boot]⟩
  modest := nofun
  caused := nofun

section Network

variable [Digests] {c : GossipCluster} {s : Epidemic}

theorem Contained.step (h : Contained c s) (a : String × GossipMove) : Contained c (c.step s a) := by
  rw [GossipCluster.step]
  split
  · rename_i hp
    obtain ⟨honce, htended, hsender, hmodest, hcaused⟩ := moved hp (h.once a.1) (h.tended a.1) a.2
    refine ⟨?_, ?_, ?_, ?_⟩
    · intro p
      dsimp only
      split
      · exact honce
      · exact h.once p
    · intro p
      dsimp only
      split
      · rename_i heq
        rw [heq]
        exact htended
      · rename_i hne
        refine (h.tended p).append fun i => countP_eq_zero.mpr ?_
        intro e he
        have hother : e.request.sender ≠ p := by
          rw [hsender e he]
          exact Ne.symm hne
        simp [hother]
    · intro e he
      rcases mem_append.mp he with hold | hnew
      · exact h.modest e hold
      · exact hmodest e hnew
    · intro e he i hi
      rcases mem_append.mp he with hold | hnew
      · exact (h.caused e hold i hi).append _
      · rw [hsender e hnew]
        exact (hcaused e hnew i hi).append _
  · exact h

theorem contained_run (c : GossipCluster) (actions : List (String × GossipMove)) : Contained c (c.run actions) :=
  foldlRecOn actions _ (contained_boot c) fun _ h a _ => h.step a

end Network

def Epidemic.cause (s : Epidemic) (j : Nat) : Option Nat := s.sent[j]?.bind SentPush.cause

def Epidemic.hopLimit (s : Epidemic) (j : Nat) : Nat := (s.sent[j]?.map fun e => e.request.hopLimit).getD 0

section Bound

variable {c : GossipCluster} {s : Epidemic} {i j : Nat} {e : SentPush}

theorem Epidemic.hopLimit_eq (h : s.sent[i]? = some e) : s.hopLimit i = e.request.hopLimit := by
  rw [Epidemic.hopLimit, h]
  rfl

variable (h : Contained c s)

include h

theorem Contained.of_begets (hbegets : Begets s.cause i j) :
    1 ≤ s.hopLimit j ∧ s.hopLimit j + 1 = s.hopLimit i ∧ j < s.sent.length := by
  obtain ⟨b, hb, hcause⟩ := Option.bind_eq_some_iff.mp hbegets
  have hmem : b ∈ s.sent := List.mem_of_getElem? hb
  obtain ⟨a, ha, _, hhop⟩ := h.caused b hmem i hcause
  rw [Epidemic.hopLimit_eq hb, Epidemic.hopLimit_eq ha]
  exact ⟨(h.modest b hmem).1, hhop, (List.getElem?_eq_some_iff.mp hb).1⟩

theorem Contained.ranked : Ranked s.cause s.hopLimit where
  falls i j hbegets := by
    have hhop := (h.of_begets hbegets).2.1
    omega
  positive i j hbegets := (h.of_begets hbegets).1

theorem Contained.handed_le (he : s.sent[i]? = some e) (p : String) :
    ((s.processes p).handed.countP fun x => x.1 = i) ≤ e.request.members.length := by
  have hstamps : (((s.processes p).handed.filter fun x => x.1 = i).map fun x => x.2.stamp).Nodup := by
    refine (h.once p).stamps.sublist (List.Sublist.map _ ?_)
    exact filter_sublist.trans (sublist_append_left ..)
  have hsubset : (((s.processes p).handed.filter fun x => x.1 = i).map fun x => x.2.stamp) ⊆
      e.request.members.map Member.stamp := by
    intro stamp hstamp
    obtain ⟨x, hx, rfl⟩ := mem_map.mp hstamp
    obtain ⟨hx, hi⟩ := mem_filter.mp hx
    obtain ⟨e', he', _, hmember⟩ := (h.tended p).handing x hx
    obtain rfl : e = e' := by
      rw [of_decide_eq_true hi] at he'
      exact Option.some.inj (he.symm.trans he')
    exact mem_map_of_mem hmember
  have hlength := (subperm_of_subset hstamps hsubset).length_le
  rwa [length_map, length_map, ← countP_eq_length_filter] at hlength

theorem Contained.countP_cause_le (i : Nat) : (s.sent.countP fun b => b.cause = some i) ≤ c.fanOut := by
  by_cases hchild : ∃ b ∈ s.sent, b.cause = some i
  · obtain ⟨b, hb, hcause⟩ := hchild
    obtain ⟨e, he, _, hhop⟩ := h.caused b hb i hcause
    have hsingle : e.request.members.length = 1 := by
      refine (h.modest e (mem_of_getElem? he)).2 ?_
      have hpositive := (h.modest b hb).1
      omega
    have hanswered : (s.sent.countP fun b => b.cause = some i) = answered s.sent e.target i := by
      refine countP_congr fun b' hb' => ?_
      simp only [decide_eq_true_iff]
      refine ⟨fun hcause' => ⟨?_, hcause'⟩, And.right⟩
      obtain ⟨e', he', htarget, _⟩ := h.caused b' hb' i hcause'
      rw [← htarget, Option.some.inj (he.symm.trans he')]
    have hhanded := h.handed_le he e.target
    rw [hsingle] at hhanded
    calc (s.sent.countP fun b => b.cause = some i)
        = answered s.sent e.target i := hanswered
      _ ≤ c.fanOut * (s.processes e.target).handed.countP (fun x => x.1 = i) :=
          (Nat.le_add_right _ _).trans ((h.tended e.target).ledger i)
      _ ≤ c.fanOut * 1 := Nat.mul_le_mul_left _ hhanded
      _ = c.fanOut := Nat.mul_one _
  · rw [countP_eq_zero.mpr]
    · exact Nat.zero_le _
    · intro b hb
      simpa using fun hcause => hchild ⟨b, hb, hcause⟩

theorem Contained.children_le (i : Nat) : (children s.cause s.sent.length i).card ≤ c.fanOut :=
  (card_children_eq_countP s.sent SentPush.cause i).trans_le (h.countP_cause_le i)

end Bound

theorem epidemic_bounded [Digests] (c : GossipCluster) (actions : List (String × GossipMove)) :
    (∀ p, (((c.run actions).processes p).handed.map fun e => e.2.stamp).Nodup) ∧
    (∀ i j, Begets (c.run actions).cause i j → (c.run actions).hopLimit j < (c.run actions).hopLimit i) ∧
    ∀ i < (c.run actions).sent.length, (∀ line, (i :: line).IsChain (Begets (c.run actions).cause) →
        (i :: line).length ≤ (c.run actions).hopLimit i) ∧
      (offspring (c.run actions).cause (c.run actions).sent.length i).card ≤
        ∑ d ∈ Finset.range ((c.run actions).hopLimit i), c.fanOut ^ d := by
  have h := contained_run c actions
  refine ⟨fun p => (h.once p).stamps.sublist ((sublist_append_left ..).map _), h.ranked.falls, ?_⟩
  intro i hi
  have hpositive : 0 < (c.run actions).hopLimit i := by
    rw [Epidemic.hopLimit_eq (getElem?_eq_getElem hi)]
    exact (h.modest _ (getElem_mem hi)).1
  refine ⟨fun line hline => h.ranked.chain_length hpositive hline, ?_⟩
  exact h.ranked.card_offspring_le (fun i j hbegets => (h.of_begets hbegets).2.2) h.children_le hpositive

end Tourillon
