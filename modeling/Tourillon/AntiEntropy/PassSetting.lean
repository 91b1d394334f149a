import Tourillon.AntiEntropy.RootSpec
import Tourillon.AntiEntropy.ExchangeTally

namespace Tourillon

open Prog Protocol Cluster Shared

variable {c : Cluster} {f : Focus} {sh : Shared}

def Vouched (c : Cluster) (f : Focus) (sh : Shared) (p : SyncProgress) : Prop :=
  ∀ pos, p.positions f.key.pid = some pos → Passed pos f.key → c.Settled f sh

theorem vouched_fresh : Vouched c f sh {} := nofun

theorem vouched_of_eq {p : SyncProgress} (h : f.src = f.dst) : Vouched c f sh p := fun _ _ _ => settled_of_eq h

def Cluster.Good [Blake2b] (c : Cluster) (sh : Shared) : Prop :=
  ∀ node group, GoodGroup c group (sh.storage node group)

structure PassSetting [Blake2b] extends Focus where
  c : Cluster
  sv : Service
  view : ReplicaView
  cutoffMs : Int
  partner : String
  anchored : Prop
  watched : Prop
  K : Shared → Prop
  encodable : key.Encodable
  fixed : anchored ∨ watched ∨ src = dst
  faces : ∀ q, q ≠ sv.node → (src = sv.node ∧ dst = q) ∨ (src = q ∧ dst = sv.node) → q = partner
  closed : src = sv.node → src ≠ dst → view.isReplica key.pid src = false
  served : src ≠ sv.node → src ≠ dst → dst = sv.node ∨ view.isReplica key.pid src = false
  home : watched → view.isReplica key.pid src = false
  stepGood : ∀ tick sh, c.Good sh → c.Good (c.env.step tick sh)
  congrK : ∀ sh sh', sh'.nodes = sh.nodes → sh'.handed = sh.handed → K sh → K sh'
  stepK : ∀ tick sh, K sh → K (c.env.step tick sh)
  writeK : ∀ sh s node pid g, s.view = view → K sh → Delivery c s toFocus sh node pid g →
    K (sh.withGroup node (c.groupFor pid) g)
  stepAnchor : anchored → ∀ tick sh, key ∈ c.heldBy sh src key.pid →
    key ∈ c.heldBy (c.env.step tick sh) src key.pid
  stepGone : watched → ∀ tick sh, key ∉ c.heldBy sh src key.pid →
    key ∉ c.heldBy (c.env.step tick sh) src key.pid
  stepKept : ∀ tick sh, c.Kept toFocus sh → c.Kept toFocus (c.env.step tick sh)
  stepVouched : ∀ tick sh ref, (anchored → key ∈ c.heldBy sh src key.pid) →
    Vouched c toFocus sh (sh.progress partner ref) →
    Vouched c toFocus (c.env.step tick sh) ((c.env.step tick sh).progress partner ref)
  stepRefs : ∀ tick sh ref, ((partner, view.serial), ref) ∈ (c.env.step tick sh).refs →
    ((partner, view.serial), ref) ∈ sh.refs ∨ (c.env.step tick sh).progress partner ref = {}

namespace PassSetting

variable {sh : Shared} {tick ref : Nat} {sh' : Shared} {w : World}

theorem source_faces (sv : Service) (r q : String) (hq : q ≠ sv.node)
    (h : (sv.node = sv.node ∧ r = q) ∨ (sv.node = q ∧ r = sv.node)) : q = r := by
  rcases h with ⟨_, heq⟩ | ⟨heq, _⟩
  · exact heq.symm
  · exact absurd heq.symm hq

theorem source_served (sv : Service) (view : ReplicaView) (key : Key) (r : String)
    (h : sv.node ≠ sv.node) (_ : sv.node ≠ r) : r = sv.node ∨ view.isReplica key.pid sv.node = false := absurd rfl h

theorem unwatched_home (view : ReplicaView) (key : Key) (src : String) (h : False) :
    view.isReplica key.pid src = false := h.elim

theorem unwatched_gone [Blake2b] (c : Cluster) (key : Key) (src : String) (h : False) (tick : Nat)
    (sh : Shared) (_ : key ∉ c.heldBy sh src key.pid) : key ∉ c.heldBy (c.env.step tick sh) src key.pid := h.elim

variable [Blake2b] (T : PassSetting)

def Timely : Prop := (T.key.ts.wallMs : Int) ≤ T.cutoffMs

def Held (sh : Shared) : Prop := T.key ∈ T.c.heldBy sh T.src T.key.pid

structure J (sh : Shared) : Prop where
  good : T.c.Good sh
  extra : T.K sh
  anchor : T.anchored → T.Held sh

def Honest (sh : Shared) (ref : Nat) : Prop :=
  Tourillon.Honest T.c (T.sv.peerSync T.partner T.view 0 T.cutoffMs ref) T.toFocus sh
    (sh.progress T.partner ref)

def Settled (w : World) : Prop := T.c.Settled T.toFocus w.shared ∨ Collided w

structure Inv (w : World) : Prop where
  stores : T.J w.shared
  honest : ∀ ref, ((T.partner, T.view.serial), ref) ∈ w.shared.refs →
    T.Honest w.shared ref ∨ Collided w

structure Move (w w' : World) : Prop where
  inv : T.Inv w'
  kept : T.c.Kept T.toFocus w.shared → T.c.Kept T.toFocus w'.shared
  settled : T.Settled w → T.Settled w'
  gone : T.watched → ¬ T.Held w.shared → ¬ T.Held w'.shared
  folded : ∀ A, A ∈ w.folds → A ∈ w'.folds

def protocol : Protocol World where
  inv := T.Inv
  move := T.Move
  keeps _ hm := hm.inv

variable {T}

theorem honest_of_vouched (h : Vouched T.c T.toFocus sh (sh.progress T.partner ref)) : T.Honest sh ref :=
  fun _ _ => h

theorem J.congr (h : T.J sh) (hn : sh'.nodes = sh.nodes) (hh : sh'.handed = sh.handed) : T.J sh' := by
  refine ⟨?_, ?_, ?_⟩
  · intro node group
    rw [storage, hn]
    exact h.good node group
  · exact T.congrK sh sh' hn hh h.extra
  · intro ha
    rw [Held, heldBy, storage, hn]
    exact h.anchor ha

theorem settled_congr (hn : sh'.nodes = sh.nodes) : T.c.Settled T.toFocus sh' ↔ T.c.Settled T.toFocus sh := by
  simp only [Cluster.Settled, Cluster.Kept, heldBy, storage, hn]

theorem stepSettled (hJ : T.J sh) (h : T.c.Settled T.toFocus sh) :
    T.c.Settled T.toFocus (T.c.env.step tick sh) := by
  rcases T.fixed with ha | hw | heq
  · intro _
    exact T.stepKept tick sh (h (hJ.anchor ha))
  · intro hm
    by_contra hno
    exact T.stepGone hw tick sh (fun hin => hno (T.stepKept tick sh (h hin))) hm
  · exact settled_of_eq heq

theorem J.step (h : T.J sh) : T.J (T.c.env.step tick sh) where
  good := T.stepGood tick sh h.good
  extra := T.stepK tick sh h.extra
  anchor ha := T.stepAnchor ha tick sh (h.anchor ha)

theorem Honest.step (hJ : T.J sh) (h : T.Honest sh ref) : T.Honest (T.c.env.step tick sh) ref := by
  intro hserve htime
  exact T.stepVouched tick sh ref hJ.anchor (h hserve htime)

theorem move_env (h : T.Inv w) :
    T.Move w { w with shared := T.c.env.step w.tick w.shared, tick := w.tick + 1 } where
  inv := by
    constructor
    · exact h.stores.step
    · intro ref hr
      rcases T.stepRefs w.tick w.shared ref hr with hold | hfresh
      · exact (h.honest ref hold).imp (Honest.step h.stores) id
      · left
        apply honest_of_vouched
        dsimp only
        rw [hfresh]
        exact vouched_fresh
  kept hk := T.stepKept w.tick w.shared hk
  settled hs := hs.imp (stepSettled h.stores) id
  gone hw hg := T.stepGone hw w.tick w.shared hg
  folded _ hA := hA

theorem move_same {w' : World} (h : T.Inv w) (hn : w'.shared.nodes = w.shared.nodes)
    (hh : w'.shared.handed = w.shared.handed) (hp : w'.shared.progress = w.shared.progress)
    (hr : w'.shared.refs = w.shared.refs) (hf : ∀ A, A ∈ w.folds → A ∈ w'.folds) : T.Move w w' := by
  have hcol (hc : Collided w) : Collided w' := by
    obtain ⟨A, B, hA, hB, heq⟩ := hc
    exact ⟨A, B, hf A hA, hf B hB, heq⟩
  refine ⟨⟨h.stores.congr hn hh, ?_⟩, ?_, ?_, ?_, hf⟩
  · intro ref hm
    rw [hr] at hm
    refine (h.honest ref hm).imp ?_ hcol
    intro hhonest hserve htime pos hpos hpass
    rw [hp] at hpos
    exact (settled_congr hn).mpr (hhonest hserve htime pos hpos hpass)
  · intro hk
    rw [Cluster.Kept, heldBy, storage, hn]
    exact hk
  · exact Or.imp (settled_congr hn).mpr hcol
  · intro _ hg
    rw [Held, heldBy, storage, hn]
    exact hg

theorem stable_settled : T.protocol.Stable T.Settled := fun _ _ _ hm => hm.settled

theorem stable_kept : T.protocol.Stable fun w => T.c.Kept T.toFocus w.shared := fun _ _ _ hm => hm.kept

theorem stable_gone : T.protocol.Stable fun w => T.watched → ¬ T.Held w.shared :=
  fun _ _ _ hm h hw => hm.gone hw (h hw)

theorem stable_folded (A : Finset Key) : T.protocol.Stable fun w => A ∈ w.folds := fun _ _ _ hm => hm.folded A

theorem spec_interfere {A : World → Prop} (hA : T.protocol.Stable A) :
    T.protocol.Spec A T.c.interfere fun _ => A := by
  apply Spec.modify
  intro w hw h
  exact ⟨.inr (move_env hw), hA _ _ hw (move_env hw) h⟩

section Session

variable {q : String} (hq : q ≠ T.sv.node) (epoch ref : Nat) {sh : Shared} {node : String} {pid : Nat}
  {g : GroupStorage} {s : PeerSync} {p : SyncProgress} {collided : Prop}

theorem settled_write (hd : Delivery T.c s T.toFocus sh node pid g) {s' : PeerSync}
    (h : Tourillon.Honest T.c s' T.toFocus sh p) :
    Tourillon.Honest T.c s' T.toFocus (sh.withGroup node (T.c.groupFor pid) g) p := by
  intro hserve htime pos hpos hpass
  exact hd.settled (h hserve htime pos hpos hpass)

theorem J.write (h : T.J sh) (hs : s.view = T.view) (hd : Delivery T.c s T.toFocus sh node pid g) :
    T.J (sh.withGroup node (T.c.groupFor pid) g) := by
  refine ⟨?_, T.writeK sh s node pid g hs h.extra hd, ?_⟩
  · intro node' group
    rw [storage_withGroup]
    split
    · rename_i heq
      rw [heq.2]
      exact hd.good
    · exact h.good node' group
  · intro ha
    have hheld := h.anchor ha
    rw [Held, heldBy, storage_withGroup]
    split
    · rename_i heq
      have hgrows := hd.grows
      rw [heldBy, ← heq.1, ← heq.2] at hgrows
      exact hgrows hheld
    · exact hheld

theorem Honest.progress {r : Nat} {ref : Nat} (h : T.Honest sh r) (hne : q = T.partner → r ≠ ref) :
    T.Honest (sh.withProgress q ref p) r := by
  intro hserve htime pos hpos hpass
  dsimp only [withProgress] at hpos
  rw [if_neg (fun heq => hne heq.1.symm heq.2)] at hpos
  exact (settled_congr rfl).mpr (h hserve htime pos hpos hpass)

def session (collided : Prop) : Setting where
  toFocus := T.toFocus
  c := T.c
  s := T.sv.peerSync q T.view epoch T.cutoffMs ref
  J sh := T.J sh ∧ (¬ collided → ∀ r, (q = T.partner → r ≠ ref) →
    ((T.partner, T.view.serial), r) ∈ sh.refs → T.Honest sh r)
  encodable := T.encodable
  distinct := hq.symm
  good sh hJ node _ group := hJ.1.good node group
  selfClosed hsrc hne := by
    right
    have hclosed := T.closed hsrc.symm hne
    rwa [← hsrc] at hclosed
  peerClosed hsrc hne := by
    have hserved := T.served (fun h => hq (hsrc.trans h)) hne
    rw [← hsrc] at hserved
    exact hserved.imp Eq.symm id
  step tick sh hJ := by
    refine ⟨hJ.1.step, ?_⟩
    intro hc r hne hr
    rcases T.stepRefs tick sh r hr with hold | hfresh
    · exact Honest.step hJ.1 (hJ.2 hc r hne hold)
    · apply honest_of_vouched
      rw [hfresh]
      exact vouched_fresh
  stepKept tick sh _ := T.stepKept tick sh
  stepSettled tick sh hJ := stepSettled hJ.1
  stepHonest tick sh hJ h := by
    intro hserve htime
    obtain rfl := T.faces q hq hserve.1
    exact T.stepVouched tick sh ref hJ.1.anchor (h hserve htime)
  write sh node pid g hJ hd := by
    refine ⟨hJ.1.write rfl hd, ?_⟩
    intro hc r hne hr
    exact settled_write hd (hJ.2 hc r hne hr)
  progress sh p hJ := by
    refine ⟨hJ.1.congr rfl rfl, ?_⟩
    intro hc r hne hr
    exact (hJ.2 hc r hne hr).progress hne

theorem stable_sessionGone (hw : T.watched) :
    (session hq epoch ref collided).protocol.Stable fun w => ¬ T.Held w.shared := by
  intro w w' hinv hm hg
  cases hm with
  | tally t => exact hg
  | recent pid => exact hg
  | fold sets => exact hg
  | env => exact T.stepGone hw _ _ hg
  | progress p h => exact hg
  | write node pid g hd =>
    intro hin
    change T.key ∈ ((w.shared.withGroup node (T.c.groupFor pid) g).storage T.src
      (T.c.groupFor T.key.pid)).held at hin
    rw [storage_withGroup] at hin
    split at hin
    · rename_i heq
      rcases hd.origin _ hin with hold | hpid
      · apply hg
        rw [Held, heldBy, heq.1, heq.2]
        exact hold
      · have hrep := hd.replica
        have hhome := T.home hw
        rw [hpid, heq.1] at hhome
        change T.view.isReplica pid node = true at hrep
        rw [hhome] at hrep
        cases hrep
    · exact hg hin

theorem stable_sessionCollided : (session hq epoch ref collided).protocol.Stable Collided :=
  fun _ _ _ hm => Setting.collided_move _ hm

theorem move_of_session {w w' : World} {S : Setting}
    (hS : S = session hq epoch ref (Collided w)) (hinv : S.protocol.inv w)
    (hreach : S.protocol.Reach w w') : T.Move w w' := by
  have hkept := (Setting.stable_kept (S := S)).reach hreach hinv
  have hsettled := (Setting.stable_settled (S := S)).reach hreach hinv
  have hfolded := fun A => (Setting.stable_folded (S := S) A).reach hreach hinv
  have hinv' := hreach.inv hinv
  subst hS
  refine ⟨⟨hinv'.1.1, ?_⟩, hkept, hsettled, ?_, hfolded⟩
  · intro r hr
    by_cases hc : Collided w
    · exact .inr ((stable_sessionCollided hq epoch ref).reach hreach hinv hc)
    by_cases hne : q = T.partner → r ≠ ref
    · exact .inl (hinv'.1.2 hc r hne hr)
    · obtain ⟨rfl, hr'⟩ := Classical.not_imp.mp hne
      rw [not_not.mp hr']
      exact hinv'.2
  · intro hw
    exact (stable_sessionGone hq epoch ref hw).reach hreach hinv

end Session

end PassSetting

end Tourillon
