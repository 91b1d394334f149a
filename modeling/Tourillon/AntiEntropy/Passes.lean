import Tourillon.AntiEntropy.PassSpec
import Tourillon.AntiEntropy.Reconcile

namespace Tourillon

open Prog Protocol

def ReplicaView.Coherent (v : ReplicaView) (node : String) : Prop :=
  v.nodeId = node ∧ (v.owns = false → ∀ pid, v.isReplica pid node = false)

theorem exists_other (node : String) : ∃ p, p ≠ node := by
  rcases eq_or_ne node "" with rfl | hne
  · exact ⟨"p", by decide⟩
  · exact ⟨"", hne.symm⟩

def Tracked (node : String) (nodes : String → Node) : Prop :=
  ∀ v, (nodes node).tracker.view = some v → v.Coherent node

theorem Tracked.write {node : String} {sh : Shared} (h : Tracked node sh.nodes) (target : String)
    (group : Nat) (g : GroupStorage) : Tracked node (sh.withGroup target group g).nodes := by
  intro v hv
  apply h v
  rw [← hv]
  dsimp only [Shared.withGroup]
  split <;> rfl

structure Lawful [Blake2b] (c : Cluster) (node : String) (sh sh' : Shared) : Prop where
  good : c.Good sh → c.Good sh'
  tracked : Tracked node sh.nodes → Tracked node sh'.nodes
  retained : ∀ f, c.Kept f sh → c.Kept f sh'
  refs : ∀ e, e ∈ sh'.refs → e ∈ sh.refs ∨ sh'.progress e.1.1 e.2 = {}

theorem Lawful.refl [Blake2b] (c : Cluster) (node : String) (sh : Shared) : Lawful c node sh sh :=
  ⟨id, id, fun _ h => h, fun _ => .inl⟩

section Observer

variable [Blake2b] {c : Cluster} {sv : Service} {view : ReplicaView} {K : Shared → Prop} {cutoffMs : Int}
  {k : Key} {p : String} {w : World}

structure Standing (c : Cluster) (node : String) (K : Shared → Prop) (w : World) :
    Prop where
  good : c.Good w.shared
  tracked : Tracked node w.shared.nodes
  extra : K w.shared

def standing (c : Cluster) (node : String) (K : Shared → Prop) : Protocol World where
  inv := Standing c node K
  move _ w' := Standing c node K w'
  keeps _ hm := hm

structure Maintained (c : Cluster) (sv : Service) (view : ReplicaView) (K : Shared → Prop) :
    Prop where
  step : ∀ tick sh, Lawful c sv.node sh (c.env.step tick sh)
  congrK : ∀ sh sh', sh'.nodes = sh.nodes → sh'.handed = sh.handed → K sh → K sh'
  stepK : ∀ tick sh, K sh → K (c.env.step tick sh)
  writeK : ∀ sh f s node pid g, s.view = view → K sh → Delivery c s f sh node pid g →
    K (sh.withGroup node (c.groupFor pid) g)

def PassSetting.observer {view : ReplicaView} {K : Shared → Prop}
    (h : Maintained c sv view K) (cutoffMs : Int) {k : Key} (hk : k.Encodable) {p : String}
    (hp : p ≠ sv.node) : PassSetting where
  key := k
  src := p
  dst := p
  c := c
  sv := sv
  view := view
  cutoffMs := cutoffMs
  partner := p
  anchored := False
  watched := False
  K sh := Tracked sv.node sh.nodes ∧ K sh
  encodable := hk
  fixed := .inr (.inr rfl)
  faces := by
    rintro q _ (⟨heq, _⟩ | ⟨_, heq⟩)
    · exact absurd heq hp
    · exact absurd heq hp
  closed heq := absurd heq hp
  served _ hne := absurd rfl hne
  home := unwatched_home view k p
  stepGood tick sh := (h.step tick sh).good
  congrK sh sh' hn hh hK := ⟨hn ▸ hK.1, h.congrK sh sh' hn hh hK.2⟩
  stepK tick sh hK := ⟨(h.step tick sh).tracked hK.1, h.stepK tick sh hK.2⟩
  writeK sh s node pid g hs hK hd := ⟨hK.1.write _ _ _, h.writeK sh _ s node pid g hs hK.2 hd⟩
  stepAnchor := nofun
  stepGone := unwatched_gone c k p
  stepKept tick sh := (h.step tick sh).retained _
  stepVouched _ _ _ _ _ := vouched_of_eq rfl
  stepRefs tick sh ref hr := (h.step tick sh).refs _ hr

theorem PassSetting.observer_inv {h : Maintained c sv view K} {hk : k.Encodable} {hp : p ≠ sv.node}
    (hw : Standing c sv.node K w) : (observer h cutoffMs hk hp).Inv w where
  stores := ⟨hw.good, ⟨hw.tracked, hw.extra⟩, nofun⟩
  honest _ _ := .inl (honest_of_vouched (vouched_of_eq rfl))

theorem PassSetting.observer_reach {h : Maintained c sv view K} {hk : k.Encodable} {hp : p ≠ sv.node}
    {w' : World} (hw : Standing c sv.node K w) (hreach : (observer h cutoffMs hk hp).protocol.Reach w w') :
    (standing c sv.node K).Reach w w' := by
  have hinv := hreach.inv (observer_inv hw)
  apply Relation.ReflTransGen.single
  exact ⟨hinv.stores.good, hinv.stores.extra.1, hinv.stores.extra.2⟩

theorem PassSetting.observer_kept {h : Maintained c sv view K} {hk : k.Encodable} {hp : p ≠ sv.node}
    {w' : World} (hw : Standing c sv.node K w) (hreach : (observer h cutoffMs hk hp).protocol.Reach w w') :
    (c.Kept ⟨k, p, p⟩ w.shared → c.Kept ⟨k, p, p⟩ w'.shared) ∧ ∀ A, A ∈ w.folds → A ∈ w'.folds := by
  have hinv : (observer h cutoffMs hk hp).Inv w := observer_inv hw
  have hkept := (stable_kept (T := observer h cutoffMs hk hp)).reach hreach hinv
  have hfolded (A : Finset Key) := (stable_folded (T := observer h cutoffMs hk hp) A).reach hreach hinv
  exact ⟨hkept, hfolded⟩

variable {K : Shared → Prop} {A : World → Prop} (hstep : ∀ tick sh, Lawful c sv.node sh (c.env.step tick sh))
  (hK : ∀ tick sh, K sh → K (c.env.step tick sh))

include hstep hK

theorem spec_standing_interfere : (standing c sv.node K).Spec A c.interfere fun _ _ => True := by
  apply Spec.modify
  intro w hw _
  refine ⟨.inr ⟨?_, ?_, ?_⟩, trivial⟩
  · exact (hstep _ _).good hw.good
  · exact (hstep _ _).tracked hw.tracked
  · exact hK _ _ hw.extra

theorem spec_waitReady : (standing c sv.node K).Spec A (sv.waitReady c) fun r _ => r.1.Coherent sv.node := by
  refine (Spec.iterate (I := fun _ _ => True) ?_ _ _).anywhere
  intro b
  apply Spec.bind (M := fun w _ => Tracked sv.node w.shared.nodes)
  · apply Spec.get
    intro w hw _
    exact hw.tracked
  intro w
  cases hv : (w.shared.nodes sv.node).tracker.view with
  | some view => exact Spec.ret fun _ _ h => h view hv
  | none =>
    apply Spec.bind (spec_standing_interfere hstep hK)
    intro _
    exact Spec.ret fun _ _ _ => trivial

end Observer

end Tourillon
