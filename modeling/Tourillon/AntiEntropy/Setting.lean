import Tourillon.AntiEntropy.PeerSync
import Tourillon.Library.Protocol
import Tourillon.Storage.CellReads

namespace Tourillon

open Endian TopVersions Shared Cluster

structure Focus where
  key : Key
  src : String
  dst : String

namespace Cluster

variable (c : Cluster)

def heldBy (sh : Shared) (node : String) (pid : Nat) : Finset Key := (sh.storage node (c.groupFor pid)).held

def Kept (f : Focus) (sh : Shared) : Prop :=
  Retained Key.newerThan (c.policy f.dst).versions (c.heldBy sh f.dst f.key.pid) f.key

def Settled (f : Focus) (sh : Shared) : Prop := f.key ∈ c.heldBy sh f.src f.key.pid → c.Kept f sh

variable {c}

theorem settled_of_eq {f : Focus} {sh : Shared} (h : f.src = f.dst) : c.Settled f sh := by
  intro hm
  rw [h] at hm
  exact .inl hm

end Cluster

@[simp] theorem Shared.storage_withGroup (sh : Shared) (node : String) (group : Nat)
    (g : GroupStorage) (node' : String) (group' : Nat) : (sh.withGroup node group g).storage node' group' =
      if node' = node ∧ group' = group then g else sh.storage node' group' := by
  by_cases hn : node' = node
  · by_cases hg : group' = group <;> simp [withGroup, storage, hn, hg]
  · simp [withGroup, storage, hn]

@[simp] theorem Shared.progress_withProgress (sh : Shared) (peer : String) (ref : Nat)
    (p : SyncProgress) : (sh.withProgress peer ref p).progress peer ref = p := by
  simp [withProgress]

structure GoodGroup [Blake2b] (c : Cluster) (group : Nat) (g : GroupStorage) : Prop
    extends Clean g where
  placed : ∀ q ∈ g.held, c.groupFor q.pid = group

structure Delivery [Blake2b] (c : Cluster) (s : PeerSync) (f : Focus) (sh : Shared) (node : String)
    (pid : Nat) (g : GroupStorage) : Prop where
  endpoint : node = s.self ∨ node = s.peer
  replica : s.view.isReplica pid node = true
  good : GoodGroup c (c.groupFor pid) g
  grows : c.heldBy sh node pid ⊆ g.held
  origin : ∀ q ∈ g.held, q ∈ c.heldBy sh node pid ∨ q.pid = pid
  honest : node = f.src → f.src ≠ f.dst → f.key ∈ g.held → f.key ∉ c.heldBy sh node pid →
    c.Kept f sh

namespace PeerSync

variable (s : PeerSync)

def Faces (f : Focus) : Prop := (f.src = s.self ∧ f.dst = s.peer) ∨ (f.src = s.peer ∧ f.dst = s.self)

def Serves (f : Focus) : Prop := s.Faces f ∧ s.view.isReplica f.key.pid f.dst = true

def Timely (k : Key) : Prop := (k.ts.wallMs : Int) ≤ s.cutoffMs

end PeerSync

def Passed (pos : Nat × Option Bytes) (k : Key) : Prop :=
  bucketOf k.ts.wallMs < pos.1 ∨ ∃ b ∈ pos.2, k.encode .tags ≤ b

def Honest (c : Cluster) (s : PeerSync) (f : Focus) (sh : Shared) (p : SyncProgress) : Prop :=
  s.Serves f → s.Timely f.key → ∀ pos, p.positions f.key.pid = some pos → Passed pos f.key →
    c.Settled f sh

def Collided [Blake2b] (w : World) : Prop := ∃ A B, A ∈ w.folds ∧ B ∈ w.folds ∧ setCell A = setCell B ∧ A ≠ B

def Distinguished [Blake2b] (w : World) : Prop := ∀ A ∈ w.folds, ∀ B ∈ w.folds, setCell A = setCell B → A = B

instance [Blake2b] (w : World) : Decidable (Distinguished w) :=
  inferInstanceAs (Decidable (∀ A ∈ w.folds, ∀ B ∈ w.folds, setCell A = setCell B → A = B))

theorem Distinguished.not_collided [Blake2b] {w : World} (h : Distinguished w) : ¬ Collided w := by
  rintro ⟨A, B, hA, hB, heq, hne⟩
  exact hne (h A hA B hB heq)

namespace Delivery

variable [Blake2b] {c : Cluster} {s : PeerSync} {f : Focus} {sh : Shared} {node : String} {pid : Nat}
  {g : GroupStorage}

theorem kept (h : Delivery c s f sh node pid g) (hk : c.Kept f sh) :
    c.Kept f (sh.withGroup node (c.groupFor pid) g) := by
  unfold Cluster.Kept heldBy at hk ⊢
  rw [storage_withGroup]
  split
  · rename_i hw
    have hg := h.grows
    rw [heldBy, ← hw.1, ← hw.2] at hg
    exact hk.mono hg
  · exact hk

theorem settled (h : Delivery c s f sh node pid g) (hk : c.Settled f sh) :
    c.Settled f (sh.withGroup node (c.groupFor pid) g) := by
  rcases eq_or_ne f.src f.dst with heq | hne
  · exact settled_of_eq heq
  intro hm
  apply h.kept
  rw [heldBy, storage_withGroup] at hm
  split at hm
  · rename_i hw
    by_cases hold : f.key ∈ c.heldBy sh node pid
    · apply hk
      rw [heldBy, hw.1, hw.2]
      exact hold
    · exact h.honest hw.1.symm hne hm hold
  · exact hk hm

end Delivery

theorem Delivery.honest_progress [Blake2b] {c : Cluster} {s : PeerSync} {f : Focus} {sh : Shared}
    {node : String} {pid : Nat} {g : GroupStorage} {p : SyncProgress}
    (h : Delivery c s f sh node pid g) (hp : Honest c s f sh p) :
    Honest c s f (sh.withGroup node (c.groupFor pid) g) p := by
  intro hserve htime pos hpos hpass
  exact h.settled (hp hserve htime pos hpos hpass)

structure Setting [Blake2b] extends Focus where
  c : Cluster
  s : PeerSync
  J : Shared → Prop
  encodable : key.Encodable
  distinct : s.self ≠ s.peer
  good : ∀ sh, J sh → ∀ node, node = s.self ∨ node = s.peer → ∀ group,
    GoodGroup c group (sh.storage node group)
  selfClosed : s.self = src → src ≠ dst → s.peer = dst ∨ s.view.isReplica key.pid s.self = false
  peerClosed : s.peer = src → src ≠ dst → s.self = dst ∨ s.view.isReplica key.pid s.peer = false
  step : ∀ tick sh, J sh → J (c.env.step tick sh)
  stepKept : ∀ tick sh, J sh → c.Kept toFocus sh → c.Kept toFocus (c.env.step tick sh)
  stepSettled : ∀ tick sh, J sh → c.Settled toFocus sh → c.Settled toFocus (c.env.step tick sh)
  stepHonest : ∀ tick sh, J sh → Honest c s toFocus sh (sh.progress s.peer s.ref) →
    Honest c s toFocus (c.env.step tick sh) ((c.env.step tick sh).progress s.peer s.ref)
  write : ∀ sh node pid g, J sh → Delivery c s toFocus sh node pid g →
    J (sh.withGroup node (c.groupFor pid) g)
  progress : ∀ sh p, J sh → J (sh.withProgress s.peer s.ref p)

namespace Setting

variable [Blake2b] (S : Setting) {w w' : World} {node : String} {p q : Prop}

def HonestAt (w : World) (p : SyncProgress) : Prop := Honest S.c S.s S.toFocus w.shared p ∨ Collided w

inductive Move : World → World → Prop
  | tally (w : World) (t : SessionTally) : Move w { w with tally := t }
  | recent (w : World) (pid : Nat) : Move w { w with recent := pid :: w.recent }
  | fold (w : World) (sets : List (Finset Key)) : Move w { w with folds := sets ++ w.folds }
  | env (w : World) :
    Move w { w with shared := S.c.env.step w.tick w.shared, tick := w.tick + 1 }
  | write (w : World) (node : String) (pid : Nat) (g : GroupStorage)
    (h : Delivery S.c S.s S.toFocus w.shared node pid g) :
    Move w { w with shared := w.shared.withGroup node (S.c.groupFor pid) g }
  | progress (w : World) (p : SyncProgress) (h : S.HonestAt w p) :
    Move w { w with shared := w.shared.withProgress S.s.peer S.s.ref p }

theorem collided_move (hm : S.Move w w') (h : Collided w) : Collided w' := by
  cases hm with
  | fold sets =>
    obtain ⟨A, B, hA, hB, heq⟩ := h
    exact ⟨A, B, List.mem_append_right _ hA, List.mem_append_right _ hB, heq⟩
  | tally t => exact h
  | recent pid => exact h
  | env => exact h
  | write node pid g hd => exact h
  | progress p hp => exact h

theorem honest_move (hJ : S.J w.shared) (hm : S.Move w w') (h : S.HonestAt w (w.shared.progress S.s.peer S.s.ref)) :
    S.HonestAt w' (w'.shared.progress S.s.peer S.s.ref) := by
  rcases h with h | h
  · cases hm with
    | tally t => exact .inl h
    | recent pid => exact .inl h
    | fold sets => exact .inl h
    | env => exact .inl (S.stepHonest _ _ hJ h)
    | write node pid g hd => exact .inl (hd.honest_progress h)
    | progress p hp =>
      unfold HonestAt
      rw [progress_withProgress]
      exact hp
  · exact .inr (S.collided_move hm h)

def protocol : Protocol World where
  inv w := S.J w.shared ∧ S.HonestAt w (w.shared.progress S.s.peer S.s.ref)
  move := S.Move
  keeps := by
    intro w w' hw hm
    refine ⟨?_, S.honest_move hw.1 hm hw.2⟩
    cases hm with
    | tally t => exact hw.1
    | recent pid => exact hw.1
    | fold sets => exact hw.1
    | env => exact S.step _ _ hw.1
    | write node pid g h => exact S.write _ _ _ _ hw.1 h
    | progress p h => exact S.progress _ _ hw.1

def Settled (w : World) : Prop := S.c.Settled S.toFocus w.shared ∨ Collided w

variable {S}

theorem stable_kept : S.protocol.Stable fun w => S.c.Kept S.toFocus w.shared := by
  intro w w' hw hm hk
  cases hm with
  | tally t => exact hk
  | recent pid => exact hk
  | fold sets => exact hk
  | env => exact S.stepKept _ _ hw.1 hk
  | write node pid g h => exact h.kept hk
  | progress p h => exact hk

theorem stable_settled : S.protocol.Stable S.Settled := by
  intro w w' hw hm hk
  rcases hk with hk | hk
  · left
    cases hm with
    | tally t => exact hk
    | recent pid => exact hk
    | fold sets => exact hk
    | env => exact S.stepSettled _ _ hw.1 hk
    | write node pid g h => exact h.settled hk
    | progress p h => exact hk
  · exact .inr (S.collided_move hm hk)

theorem stable_folded (A : Finset Key) : S.protocol.Stable fun w => A ∈ w.folds := by
  intro w w' _ hm hk
  cases hm with
  | fold sets => exact List.mem_append_right _ hk
  | tally t => exact hk
  | recent pid => exact hk
  | env => exact hk
  | write node q g h => exact hk
  | progress p h => exact hk

theorem stable_recent (pid : Nat) : S.protocol.Stable fun w => pid ∈ w.recent := by
  intro w w' _ hm hk
  cases hm with
  | recent q => exact List.mem_cons_of_mem q hk
  | fold sets => exact hk
  | tally t => exact hk
  | env => exact hk
  | write node q g h => exact hk
  | progress p h => exact hk

def Seen (S : Setting) (node : String) (present : Prop) (w : World) : Prop :=
  (present → node = S.dst → S.c.Kept S.toFocus w.shared) ∧
    (¬ present → node = S.src → S.Settled w)

theorem stable_seen (node : String) (present : Prop) : S.protocol.Stable (S.Seen node present) :=
  (stable_kept.imp.imp).and (stable_settled.imp.imp)

theorem seen_now (node : String) : S.Seen node (S.key ∈ S.c.heldBy w.shared node S.key.pid) w := by
  refine ⟨?_, ?_⟩
  · rintro hm rfl
    exact .inl hm
  · rintro hm rfl
    exact .inl fun hin => absurd hin hm

theorem Seen.congr (h : S.Seen node p w) (hpq : p ↔ q) : S.Seen node q w := by rwa [propext hpq] at h

theorem Seen.or (hp : S.Seen node p w) (hq : S.Seen node q w) : S.Seen node (p ∨ q) w := by
  refine ⟨?_, ?_⟩
  · rintro (h | h) hn
    · exact hp.1 h hn
    · exact hq.1 h hn
  · intro h hn
    exact hp.2 (fun hx => h (.inl hx)) hn

theorem kept_settled (h : S.c.Kept S.toFocus w.shared) : S.Settled w := .inl fun _ => h

structure CellSeen (S : Setting) (node : String) (cell : DigestCell) (w : World) : Prop where
  intro ::
  seen : ∃ A : Finset Key, (A = ∅ ∨ A ∈ w.folds) ∧ cell = setCell A ∧ S.Seen node (S.key ∈ A) w

theorem stable_cellSeen (node : String) (cell : DigestCell) : S.protocol.Stable (S.CellSeen node cell) := by
  intro w w' hw hm ⟨A, hA, hc, hs⟩
  exact ⟨A, hA.imp id (stable_folded A w w' hw hm), hc, stable_seen node _ w w' hw hm hs⟩

theorem eq_or_collided {A B : Finset Key} (hA : A = ∅ ∨ A ∈ w.folds) (hB : B = ∅ ∨ B ∈ w.folds)
    (h : setCell A = setCell B) : A = B ∨ Collided w := by
  rcases hA with rfl | hA
  · exact .inl (setCell_eq_zero h.symm).symm
  · rcases hB with rfl | hB
    · exact .inl (setCell_eq_zero h)
    · by_cases heq : A = B
      · exact .inl heq
      · exact .inr ⟨A, B, hA, hB, h, heq⟩

theorem CellSeen.settled {cell : DigestCell} (hs : S.s.Faces S.toFocus) (hself : S.CellSeen S.s.self cell w)
    (hpeer : S.CellSeen S.s.peer cell w) : S.Settled w := by
  obtain ⟨A, hA, ha, hsa⟩ := hself
  obtain ⟨B, hB, hb, hsb⟩ := hpeer
  rcases eq_or_collided hA hB (ha.symm.trans hb) with rfl | hcol
  · by_cases hk : S.key ∈ A
    · rcases hs with ⟨_, hd⟩ | ⟨_, hd⟩
      · exact kept_settled (hsb.1 hk hd.symm)
      · exact kept_settled (hsa.1 hk hd.symm)
    · rcases hs with ⟨hd, _⟩ | ⟨hd, _⟩
      · exact hsa.2 hk hd.symm
      · exact hsb.2 hk hd.symm
  · exact .inr hcol

end Setting

end Tourillon
