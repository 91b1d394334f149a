import Tourillon.AntiEntropy.Join
import Tourillon.AntiEntropy.Orphans

namespace Tourillon

open Endian Exceptional Prog Protocol PassSetting Service List

structure HandoffStep [Blake2b] (c : Cluster) (node : String) (sh sh' : Shared) : Prop
    extends Lawful c node sh sh' where
  grows : ∀ group, (sh.storage node group).held ⊆ (sh'.storage node group).held
  vouched : ∀ k peer ref, Vouched c ⟨k, node, peer⟩ sh (sh.progress peer ref) →
    Vouched c ⟨k, node, peer⟩ sh' (sh'.progress peer ref)
  handed : sh'.handed = sh.handed

def Vouching (c : Cluster) (node : String) (view : ReplicaView) (sh : Shared) : Prop :=
  ∀ peer ref, ((peer, view.serial), ref) ∈ sh.refs →
    ∀ k, Vouched c ⟨k, node, peer⟩ sh (sh.progress peer ref)

abbrev Mark := Nat × (BitVec 128 × Bytes)

def Service.recordMarks (view : ReplicaView) (result : Exchange) (marks : List Mark) : Ae Unit :=
  each marks fun e => whenever (result.reached.count e.1 = (view.replicasOf e.1).length) (recordMark e.1 e.2)

theorem recordMarks_run (view : ReplicaView) (result : Exchange) (marks : List Mark) (w : World) :
    ∃ handed, recordMarks view result marks w = (.ok (), { w with shared := { w.shared with handed := handed } }) ∧
      ∀ e ∈ handed, e ∈ w.shared.handed ∨ (e ∈ marks ∧
        result.reached.count e.1 = (view.replicasOf e.1).length) := by
  induction marks generalizing w with
  | nil => exact ⟨w.shared.handed, rfl, fun e he => .inl he⟩
  | cons m marks ih =>
    by_cases hm : result.reached.count m.1 = (view.replicasOf m.1).length
    · obtain ⟨handed, hrun, hmem⟩ := ih { w with shared := { w.shared with
        handed := m :: w.shared.handed.filter fun e => e.1 ≠ m.1 } }
      refine ⟨handed, ?_, ?_⟩
      · rw [recordMarks, each, whenever, if_pos hm]
        exact hrun
      · intro e he
        rcases hmem e he with hold | ⟨hin, hcount⟩
        · rcases mem_cons.mp hold with rfl | hold
          · exact .inr ⟨mem_cons_self .., hm⟩
          · exact .inl (mem_filter.mp hold).1
        · exact .inr ⟨mem_cons_of_mem _ hin, hcount⟩
    · obtain ⟨handed, hrun, hmem⟩ := ih w
      refine ⟨handed, ?_, ?_⟩
      · rw [recordMarks, each, whenever, if_neg hm]
        exact hrun
      · intro e he
        exact (hmem e he).imp id fun h => ⟨mem_cons_of_mem _ h.1, h.2⟩

section Handoff

variable [Blake2b] {c : Cluster} {sv : Service} {view : ReplicaView} {w w' : World} {m : Mark}
  {handed : List Mark} {node : String}

structure Survey (c : Cluster) (node : String) (view : ReplicaView) (handed : List Mark)
    (w : World) : Prop where
  good : c.Good w.shared
  tracked : Tracked node w.shared.nodes
  vouching : Vouching c node view w.shared
  handed : w.shared.handed = handed

structure SurveyMove (c : Cluster) (node : String) (w w' : World) : Prop where
  grows : ∀ group, (w.shared.storage node group).held ⊆ (w'.shared.storage node group).held
  kept : ∀ f, c.Kept f w.shared → c.Kept f w'.shared
  folded : ∀ A, A ∈ w.folds → A ∈ w'.folds

def survey (c : Cluster) (node : String) (view : ReplicaView) (handed : List Mark) : Protocol World where
  inv := Survey c node view handed
  move w w' := Survey c node view handed w' ∧ SurveyMove c node w w'
  keeps _ hm := hm.1

theorem survey_watch (henv : ∀ tick sh, HandoffStep c sv.node sh (c.env.step tick sh)) (handed : List Mark) :
    Watch (survey c sv.node view handed) c sv.node
      fun group g w => g.held ⊆ (w.shared.storage sv.node group).held where
  good w hw group := hw.good sv.node group
  env w hw := by
    have hstep := henv w.tick w.shared
    refine ⟨⟨hstep.good hw.good, hstep.tracked hw.tracked, ?_, hstep.handed.trans hw.handed⟩,
      hstep.grows, hstep.retained, fun _ hA => hA⟩
    intro peer ref href k
    rcases hstep.refs _ href with hold | hfresh
    · exact hstep.vouched k peer ref (hw.vouching peer ref hold k)
    · change Vouched c _ (c.env.step w.tick w.shared) ((c.env.step w.tick w.shared).progress peer ref)
      rw [show (c.env.step w.tick w.shared).progress peer ref = {} from hfresh]
      exact vouched_fresh
  fold w sets hw := by
    refine ⟨⟨hw.good, hw.tracked, hw.vouching, hw.handed⟩, fun _ => Finset.Subset.refl _, fun _ h => h, ?_⟩
    intro A hA
    exact mem_append_right _ hA
  now _ _ _ := Finset.Subset.refl _
  stable group g w w' _ hm h := h.trans (hm.2.grows group)
  folded A w w' _ hm hA := hm.2.folded A hA

structure Marked (c : Cluster) (node : String) (view : ReplicaView) (w : World) (m : Mark) :
    Prop where
  intro ::
  orphan : view.isReplica m.1 node = false
  root : ∃ A ∈ w.folds, (setCell A).toBytes = .ok m.2.2 ∧
    ∀ k ∈ A, (k.pid = m.1 ∧ k.Encodable) ∧ k ∈ c.heldBy w.shared node k.pid

theorem marked_of_listed {e : Nat × DigestCell} (hnode : view.nodeId = sv.node)
    (h : Watch.Listed c (fun group g w => g.held ⊆ (w.shared.storage sv.node group).held) w e) {hi : Nat}
    (hm : orphanMark view hi handed e = .ok (some m)) : Marked c sv.node view w m := by
  obtain ⟨hpid, _, horphan, hcell⟩ := orphanMark_eq_some hm
  obtain ⟨hbound, g, hgood, hobs, he, hfold⟩ := h
  refine ⟨?_, g.counted (rootRef e.1), hfold, ?_, ?_⟩
  · rw [hpid, ← hnode]
    exact horphan
  · rw [← he]
    exact hcell
  · intro k hk
    obtain ⟨hheld, href⟩ := Finset.mem_filter.mp hk
    have hkey := hgood.toSound.encodable_of_held hheld
    have hkpid : k.pid = e.1 := (mem_cellRefs_root hkey hbound).mp href
    refine ⟨⟨hkpid.trans hpid.symm, hkey⟩, ?_⟩
    rw [Cluster.heldBy, hkpid]
    exact hobs hheld

theorem spec_orphans (henv : ∀ tick sh, HandoffStep c sv.node sh (c.env.step tick sh))
    (hnode : view.nodeId = sv.node) (handed : List Mark) (unit : SweepUnit) :
    (survey c sv.node view handed).Spec (fun _ => True) (sv.orphans c unit view)
      fun marks w => (marks.map Prod.fst).Nodup ∧ ∀ m ∈ marks, Marked c sv.node view w m := by
  apply Spec.bind ((survey_watch henv handed).spec_rootPage _ _)
  rintro ⟨roots, next⟩
  apply Spec.bind (M := fun _ w => Watch.RootsListed c
    (fun group g w => g.held ⊆ (w.shared.storage sv.node group).held) _ next roots w)
    (Spec.get fun _ _ h => h)
  intro w
  apply Spec.lift
  intro marks w' _ hroots hrun
  have hmarks := mapError_eq_ok hrun
  obtain ⟨hsub, hmem⟩ := filterMapM_sublist Prod.fst Prod.fst
    (fun e m he => (orphanMark_eq_some he).1) hmarks
  refine ⟨?_, ?_⟩
  · have hnodup : (roots.map Prod.fst).Nodup :=
      (pairwise_map.mpr hroots.sorted).imp fun hlt => hlt.ne
    exact hnodup.sublist hsub
  · intro m hm
    obtain ⟨e, he, hmark⟩ := hmem m hm
    exact marked_of_listed hnode (hroots.listed e he) hmark

def Service.exchangeMarks (c : Cluster) (sv : Service) (view : ReplicaView) (epoch : Nat)
    (marks : List Mark) : Ae Exchange := do
  let peers ← Cluster.python (targets view (marks.map Prod.fst))
  let cutoffMs ← sv.cutoffMs c
  sv.exchange c peers view epoch cutoffMs sessionPhases false

theorem handoff_eq (unit : SweepUnit) (epoch : Nat) :
    sv.handoff c unit view epoch = sv.orphans c unit view >>= fun marks =>
      exchangeMarks c sv view epoch marks >>= fun result => recordMarks view result marks := by
  simp only [handoff, exchangeMarks, bind_assoc]
  rfl

def PassSetting.handedOver (cutoffMs : Int) {k : Key} (hk : k.Encodable)
    (hview : view.isReplica k.pid sv.node = false) (r : String)
    (henv : ∀ tick sh, HandoffStep c sv.node sh (c.env.step tick sh)) : PassSetting where
  key := k
  src := sv.node
  dst := r
  c := c
  sv := sv
  view := view
  cutoffMs := cutoffMs
  partner := r
  anchored := True
  watched := False
  K _ := True
  encodable := hk
  fixed := .inl trivial
  faces := source_faces sv r
  closed _ _ := hview
  served := source_served sv view k r
  home := nofun
  stepGood tick sh := (henv tick sh).good
  congrK _ _ _ _ _ := trivial
  stepK _ _ _ := trivial
  writeK _ _ _ _ _ _ _ _ := trivial
  stepAnchor _ tick sh hin := (henv tick sh).grows _ hin
  stepGone := nofun
  stepKept tick sh := (henv tick sh).retained _
  stepVouched tick sh ref _ := (henv tick sh).vouched k r ref
  stepRefs tick sh _ h := (henv tick sh).refs _ h

namespace PassSetting

variable {T : PassSetting}

theorem spec_cutoffMs {tick : Nat} (hcut : T.cutoffMs = T.c.env.nowMs tick - T.sv.graceMs) :
    T.protocol.Spec (fun w => w.tick = tick) (T.sv.cutoffMs T.c) fun ms _ => ms = T.cutoffMs := by
  apply Spec.bind (M := fun (w : World) _ => w.tick = tick) (Spec.get fun _ _ h => h)
  intro w
  apply Spec.ret
  intro _ _ htick
  rw [hcut, htick]

theorem settled_of_marks {pids : List Nat} (hn : pids.Nodup) {peers : List (String × List Nat)}
    (hpeers : targets T.view pids = .ok peers) {zs : List Handled}
    (hperm : (zs.map Prod.fst).Perm peers) {w : World} (hrep : ∀ x ∈ zs, T.Reported false x w)
    (hp : T.key.pid ∈ pids) (hall : (zs.foldl Exchange.record {}).reached.count T.key.pid =
      (T.view.replicasOf T.key.pid).length) (hsrc : T.src = T.sv.node)
    (hdst : T.dst ∈ T.view.replicasOf T.key.pid) : T.Settled w := by
  obtain ⟨hnames, hcounts⟩ := tally_targets hpeers hn hp hperm
  obtain ⟨x, hx, hxp, hreach⟩ := reached_every hnames hcounts hall hdst
  obtain ⟨recent, hdone, hnot⟩ := Handled.reaches_iff.mp hreach
  have hmem : T.key.pid ∈ x.1.2 := by
    rw [← count_pos_iff, hcounts x hx, count_pos_iff, hxp]
    exact hdst
  obtain ⟨hsettled, hnoted⟩ := hrep x hx recent hdone (.inl ⟨hsrc, hxp.symm⟩) hmem
  by_cases htime : T.Timely
  · exact hsettled (decide_eq_true hdst) htime
  · exact (hnoted hsrc rfl htime).resolve_left hnot

theorem spec_exchangeMarks (w₀ : World)
    (hcut : T.cutoffMs = T.c.env.nowMs w₀.tick - T.sv.graceMs) {marks : List Mark} (hn : (marks.map Prod.fst).Nodup)
    (horphan : ∀ m ∈ marks, T.view.isReplica m.1 T.sv.node = false) (epoch : Nat) :
    T.protocol.Spec (fun w => w = w₀) (exchangeMarks T.c T.sv T.view epoch marks)
      fun result w => T.key.pid ∈ marks.map Prod.fst →
        result.reached.count T.key.pid = (T.view.replicasOf T.key.pid).length →
        T.src = T.sv.node → T.dst ∈ T.view.replicasOf T.key.pid → T.Settled w := by
  apply Spec.bind (M := fun peers w => w = w₀ ∧ targets T.view (marks.map Prod.fst) = .ok peers)
  · exact Spec.lift fun peers w _ h hpeers => ⟨h, mapError_eq_ok hpeers⟩
  intro peers
  apply Spec.assume (p := targets T.view (marks.map Prod.fst) = .ok peers) fun _ _ h => h.2
  intro hpeers
  apply Spec.bind ((spec_cutoffMs hcut).pre fun _ _ h => congrArg World.tick h.1)
  intro cutoffMs
  apply Spec.assume (p := cutoffMs = T.cutoffMs) fun _ _ h => h
  rintro rfl
  have hpids : ∀ pid ∈ marks.map Prod.fst, T.view.isReplica pid T.sv.node = false := by
    intro pid hpid
    obtain ⟨m, hm, rfl⟩ := mem_map.mp hpid
    exact horphan m hm
  apply (spec_exchange (targets_elsewhere hpids hpeers) epoch sessionPhases false).anywhere.post
  rintro result w _ ⟨zs, rfl, hperm, hrep⟩ hp hall hsrc hdst
  exact settled_of_marks hn hpeers hperm hrep hp hall hsrc hdst

end PassSetting

structure MarkSound (c : Cluster) (node : String) (view : ReplicaView) (w : World) (m : Mark) :
    Prop where
  intro ::
  root : ∃ A ∈ w.folds, (setCell A).toBytes = .ok m.2.2 ∧ ∀ k ∈ A, k.Encodable ∧
    ∀ r ∈ view.replicasOf m.1, r ≠ node ∧ (c.Kept ⟨k, node, r⟩ w.shared ∨ Collided w)

structure HandoffInv (c : Cluster) (node : String) (view : ReplicaView) (w : World) : Prop where
  good : c.Good w.shared
  tracked : Tracked node w.shared.nodes
  sound : ∀ m ∈ w.shared.handed, MarkSound c node view w m

theorem MarkSound.mono (h : MarkSound c node view w m) (hfolds : ∀ A, A ∈ w.folds → A ∈ w'.folds)
    (hkept : ∀ k r, k.Encodable → r ≠ node → c.Kept ⟨k, node, r⟩ w.shared → c.Kept ⟨k, node, r⟩ w'.shared) :
    MarkSound c node view w' m := by
  obtain ⟨A, hA, hcell, hall⟩ := h
  refine ⟨A, hfolds A hA, hcell, ?_⟩
  intro k hk
  obtain ⟨hkey, hrep⟩ := hall k hk
  refine ⟨hkey, ?_⟩
  intro r hr
  obtain ⟨hne, hr⟩ := hrep r hr
  refine ⟨hne, hr.imp (hkept k r hkey hne) ?_⟩
  rintro ⟨B, D, hB, hD, heq⟩
  exact ⟨B, D, hfolds B hB, hfolds D hD, heq⟩

theorem SurveyMove.of_reach (h : (survey c node view handed).Reach w w') : SurveyMove c node w w' := by
  induction h with
  | refl => exact ⟨fun _ => Finset.Subset.refl _, fun _ h => h, fun _ h => h⟩
  | tail _ hm ih =>
    refine ⟨?_, ?_, ?_⟩
    · exact fun group => (ih.grows group).trans (hm.2.grows group)
    · exact fun f h => hm.2.kept f (ih.kept f h)
    · exact fun A hA => hm.2.folded A (ih.folded A hA)

theorem handoff_maintained (view : ReplicaView) (henv : ∀ tick sh, HandoffStep c sv.node sh (c.env.step tick sh))
    (handed : List Mark) : Maintained c sv view fun sh => sh.handed = handed where
  step tick sh := (henv tick sh).toLawful
  congrK _ _ _ hh h := hh.trans h
  stepK tick sh h := (henv tick sh).handed.trans h
  writeK _ _ _ _ _ _ _ h _ := h

section Sweep

variable {marks : List Mark} {w : World}

structure Exchanged (c : Cluster) (node : String) (w w' : World) : Prop where
  good : c.Good w'.shared
  tracked : Tracked node w'.shared.nodes
  handed : w'.shared.handed = w.shared.handed
  folded : ∀ A, A ∈ w.folds → A ∈ w'.folds
  kept : ∀ k r, k.Encodable → r ≠ node → c.Kept ⟨k, node, r⟩ w.shared →
    c.Kept ⟨k, node, r⟩ w'.shared

variable (henv : ∀ tick sh, HandoffStep c sv.node sh (c.env.step tick sh))

include henv

theorem exchangeMarks_exchanged (hgood : c.Good w.shared) (htracked : Tracked sv.node w.shared.nodes)
    (hn : (marks.map Prod.fst).Nodup) (horphan : ∀ m ∈ marks, view.isReplica m.1 sv.node = false) (epoch : Nat) :
    Exchanged c sv.node w (exchangeMarks c sv view epoch marks w).2 := by
  have hstanding : Standing c sv.node (fun sh => sh.handed = w.shared.handed) w := ⟨hgood, htracked, rfl⟩
  have hrun (k : Key) (hk : k.Encodable) (r : String) (hr : r ≠ sv.node) :=
    (spec_exchangeMarks (T := observer
      (handoff_maintained view henv w.shared.handed) (c.env.nowMs w.tick - sv.graceMs) hk hr)
      w rfl hn horphan epoch w (observer_inv hstanding) rfl).1
  obtain ⟨p, hp⟩ := exists_other sv.node
  have hreach := hrun originKey originKey_encodable p hp
  have hend := (observer_reach hstanding hreach).inv hstanding
  refine ⟨hend.good, hend.tracked, hend.extra, ?_, ?_⟩
  · exact (observer_kept hstanding hreach).2
  · intro k r hk hr
    exact (observer_kept hstanding (hrun k hk r hr)).1

theorem exchangeMarks_settles (hgood : c.Good w.shared) (hvouching : Vouching c sv.node view w.shared)
    (hn : (marks.map Prod.fst).Nodup) (hmarked : ∀ m ∈ marks, Marked c sv.node view w m) (epoch : Nat)
    (result : Exchange) (hrun : (exchangeMarks c sv view epoch marks w).1 = .ok result) {m : Mark}
    (hm : m ∈ marks) (hall : result.reached.count m.1 = (view.replicasOf m.1).length)
    (hfolded : ∀ A, A ∈ w.folds → A ∈ (exchangeMarks c sv view epoch marks w).2.folds) :
    MarkSound c sv.node view (exchangeMarks c sv view epoch marks w).2 m := by
  obtain ⟨horphan, A, hA, hcell, hkeys⟩ := hmarked m hm
  refine ⟨A, hfolded A hA, hcell, ?_⟩
  intro k hk
  obtain ⟨⟨hpid, hkey⟩, hheld⟩ := hkeys k hk
  refine ⟨hkey, ?_⟩
  intro r hr
  have hne : r ≠ sv.node := by
    rintro rfl
    rw [ReplicaView.isReplica, decide_eq_false_iff_not] at horphan
    exact horphan hr
  refine ⟨hne, ?_⟩
  rw [← hpid] at horphan hall hr
  have hinv : (handedOver (c.env.nowMs w.tick - sv.graceMs) hkey horphan r henv).Inv w :=
    ⟨⟨hgood, trivial, fun _ => hheld⟩, fun ref href => .inl (honest_of_vouched (hvouching r ref href k))⟩
  obtain ⟨hreach, hpost⟩ := spec_exchangeMarks
    (T := handedOver (c.env.nowMs w.tick - sv.graceMs) hkey horphan r henv)
    w rfl hn (fun m hm => (hmarked m hm).orphan) epoch w hinv rfl
  have hend := (hreach.inv hinv).stores.anchor trivial
  have hmem : k.pid ∈ marks.map Prod.fst := mem_map.mpr ⟨m, hm, hpid.symm⟩
  exact (hpost result hrun hmem hall rfl hr).imp (fun hsettled => hsettled hend) id

theorem handoff_sound (hnode : view.nodeId = sv.node) (hw : HandoffInv c sv.node view w)
    (hvouching : Vouching c sv.node view w.shared) (unit : SweepUnit) (epoch : Nat) :
    HandoffInv c sv.node view (sv.handoff c unit view epoch w).2 := by
  rw [handoff_eq]
  have hsurvey : Survey c sv.node view w.shared.handed w := ⟨hw.good, hw.tracked, hvouching, rfl⟩
  obtain ⟨hreach, hpost⟩ := spec_orphans henv hnode w.shared.handed unit w hsurvey trivial
  rcases horphans : sv.orphans c unit view w with ⟨found, w₁⟩
  rw [horphans] at hreach hpost
  have hmove := SurveyMove.of_reach hreach
  have hlisted := hreach.inv hsurvey
  have hinv₁ : HandoffInv c sv.node view w₁ := by
    refine ⟨hlisted.good, hlisted.tracked, ?_⟩
    intro m hm
    rw [hlisted.handed] at hm
    exact (hw.sound m hm).mono hmove.folded fun _ _ _ _ => hmove.kept _
  cases found with
  | error e =>
    rw [bind_error horphans]
    exact hinv₁
  | ok marks =>
    rw [bind_ok horphans]
    obtain ⟨hn, hmarked⟩ := hpost marks rfl
    have hexchanged := exchangeMarks_exchanged henv hinv₁.good hinv₁.tracked hn
      (fun m hm => (hmarked m hm).orphan) epoch
    have hsettles (result : Exchange) :=
      exchangeMarks_settles henv hinv₁.good hlisted.vouching hn hmarked epoch result
    rcases hexchange : exchangeMarks c sv view epoch marks w₁ with ⟨outcome, w₂⟩
    rw [hexchange] at hexchanged hsettles
    have hold (m : Mark) (hm : m ∈ w₂.shared.handed) : MarkSound c sv.node view w₂ m := by
      rw [hexchanged.handed] at hm
      exact (hinv₁.sound m hm).mono hexchanged.folded hexchanged.kept
    cases outcome with
    | error e =>
      rw [bind_error hexchange]
      exact ⟨hexchanged.good, hexchanged.tracked, hold⟩
    | ok result =>
      rw [bind_ok hexchange]
      obtain ⟨handed, hrun, hmem⟩ := recordMarks_run view result marks w₂
      rw [hrun]
      refine ⟨hexchanged.good, hexchanged.tracked, ?_⟩
      intro m hm
      have hsound : MarkSound c sv.node view w₂ m := by
        rcases hmem m hm with hin | ⟨hin, hall⟩
        · exact hold m hin
        · exact hsettles result rfl hin hall hexchanged.folded
      exact hsound.mono (fun _ h => h) fun _ _ _ _ h => h

end Sweep

inductive HandoffRun (c : Cluster) (sv : Service) (view : ReplicaView) : World → World → Prop
  | start (w : World) : HandoffRun c sv view w w
  | pause {w w' : World} (run : HandoffRun c sv view w w') :
    HandoffRun c sv view w
      { w' with shared := c.env.step w'.tick w'.shared, tick := w'.tick + 1 }
  | sweep {w w' : World} (unit : SweepUnit) (epoch : Nat) (run : HandoffRun c sv view w w')
    (vouching : Vouching c sv.node view w'.shared) :
    HandoffRun c sv view w (sv.handoff c unit view epoch w').2

theorem HandoffRun.inv (henv : ∀ tick sh, HandoffStep c sv.node sh (c.env.step tick sh))
    (hnode : view.nodeId = sv.node) (h : HandoffRun c sv view w w') (hw : HandoffInv c sv.node view w) :
    HandoffInv c sv.node view w' := by
  induction h with
  | start => exact hw
  | @pause w' run ih =>
    have hstep := henv w'.tick w'.shared
    have hinv := ih
    refine ⟨hstep.good hinv.good, hstep.tracked hinv.tracked, ?_⟩
    intro m hm
    rw [show (c.env.step w'.tick w'.shared).handed = w'.shared.handed from hstep.handed] at hm
    exact (hinv.sound m hm).mono (fun _ h => h) fun _ _ _ _ => hstep.retained _
  | sweep unit epoch run vouching ih => exact handoff_sound henv hnode ih vouching unit epoch

theorem handoff_marks_sound (sv : Service) (henv : ∀ tick sh, HandoffStep c sv.node sh (c.env.step tick sh))
    (hnode : view.nodeId = sv.node) {w w' : World} (hgood : c.Good w.shared)
    (htracked : Tracked sv.node w.shared.nodes) (hempty : w.shared.handed = [])
    (hrun : HandoffRun c sv view w w') (hdist : Distinguished w') {m : Mark}
    (hm : m ∈ w'.shared.handed) {A : Finset Key} (hA : A ∈ w'.folds)
    (hcell : (setCell A).toBytes = .ok m.2.2) {k : Key} (hk : k ∈ A) {r : String}
    (hr : r ∈ view.replicasOf m.1) : c.Kept ⟨k, sv.node, r⟩ w'.shared := by
  have hstart : HandoffInv c sv.node view w := by
    refine ⟨hgood, htracked, ?_⟩
    rw [hempty]
    nofun
  obtain ⟨B, hB, hroot, hkeys⟩ := (hrun.inv henv hnode hstart).sound m hm
  have hsame : A = B := hdist A hA B hB (DigestCell.toBytes_inj hcell hroot)
  subst hsame
  exact ((hkeys k hk).2 r hr).2.resolve_right hdist.not_collided

end Handoff

namespace Sample

def entry (name : Bytes) (wallMs : Nat) : Record :=
  ⟨⟨⟨0, ⟨[1], name⟩, ⟨wallMs, 0, "a", size_a⟩⟩, ⟨.live, {}⟩⟩, ⟨[3], 1, size_three⟩⟩

def bucketMs : Nat := 2 ^ 22

def frugal : Service :=
  ⟨"a", { limits with maxRepairs := 1, repairsPositive := Nat.one_pos }, 16, 0, limits.keysPositive⟩

def orphaned : SweepUnit := ⟨none, [], 0, 2⟩

def sweepAgain (c : Cluster) (late : Record) : Ae Unit := do
  frugal.handoff c orphaned (view ["b"]) 0
  let _ ← c.writeSession "a" 0 fun s => s.putMany [late]
  frugal.handoff c orphaned (view ["b"]) 0

def twoBuckets : World := world (shared ["b"] (onlyAt "a" [entry [2] bucketMs, entry [3] (2 * bucketMs)]))

instance (c : Cluster) (f : Focus) (sh : Shared) : Decidable (c.Kept f sh) :=
  inferInstanceAs (Decidable (_ ∈ _ ∨ _ ≤ Finset.card _))

theorem handoff_marks_late_version :
    ((sweepAgain (cluster (still (4 * bucketMs))) (entry [4] 7) twoBuckets).1 = .ok ()) ∧
    ∃ m ∈ (sweepAgain (cluster (still (4 * bucketMs))) (entry [4] 7) twoBuckets).2.shared.handed,
    ∃ A ∈ (sweepAgain (cluster (still (4 * bucketMs))) (entry [4] 7) twoBuckets).2.folds,
      (setCell A).toBytes = .ok m.2.2 ∧ (entry [4] 7).key ∈ A ∧ "b" ∈ (view ["b"]).replicasOf m.1 ∧
      ¬ (cluster (still (4 * bucketMs))).Kept ⟨(entry [4] 7).key, "a", "b"⟩
        (sweepAgain (cluster (still (4 * bucketMs))) (entry [4] 7) twoBuckets).2.shared := by
  refine ⟨?_, ?_⟩
  · decide +kernel
  · decide +kernel

theorem still_handoff (nowMs : Int) (tick : Nat) (sh : Shared) :
    HandoffStep (cluster (still nowMs)) "a" sh ((cluster (still nowMs)).env.step tick sh) where
  toLawful := Lawful.refl _ _ _
  grows _ := Finset.Subset.refl _
  vouched _ _ _ h := h
  handed := rfl

theorem handoff_marks_kept_version : ∃ m ∈ ((service "a").handoff (cluster (still bucketMs)) orphaned (view ["b"]) 0
      (only ["b"] "a" 5)).2.shared.handed, (setCell {(version 5).key}).toBytes = .ok m.2.2 ∧
      (cluster (still bucketMs)).Kept ⟨(version 5).key, "a", "b"⟩
        ((service "a").handoff (cluster (still bucketMs)) orphaned (view ["b"]) 0 (only ["b"] "a" 5)).2.shared := by
  have hcheck : ∃ m ∈ ((service "a").handoff (cluster (still bucketMs)) orphaned (view ["b"]) 0
      (only ["b"] "a" 5)).2.shared.handed,
      (setCell {(version 5).key}).toBytes = .ok m.2.2 ∧ "b" ∈ (view ["b"]).replicasOf m.1 := by
    decide +kernel
  have hfold : {(version 5).key} ∈ ((service "a").handoff (cluster (still bucketMs)) orphaned
      (view ["b"]) 0 (only ["b"] "a" 5)).2.folds := by
    decide +kernel
  have hdist : Distinguished ((service "a").handoff (cluster (still bucketMs)) orphaned
      (view ["b"]) 0 (only ["b"] "a" 5)).2 := by
    decide +kernel
  have hrun : HandoffRun (cluster (still bucketMs)) (service "a") (view ["b"]) (only ["b"] "a" 5)
      ((service "a").handoff (cluster (still bucketMs)) orphaned (view ["b"]) 0
        (only ["b"] "a" 5)).2 := .sweep orphaned 0 (.start _) nofun
  obtain ⟨m, hm, hcell, hr⟩ := hcheck
  have hfinal := handoff_marks_sound (service "a") (still_handoff bucketMs) rfl
    (only_good _ _ (by decide) _) (only_tracked _ _) rfl hrun hdist hm hfold hcell
    (Finset.mem_singleton_self _) hr
  exact ⟨m, hm, hcell, hfinal⟩

end Sample

end Tourillon
