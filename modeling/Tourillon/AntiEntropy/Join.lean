import Tourillon.AntiEntropy.Drain

namespace Tourillon

open Exceptional Prog Protocol Sequence PassSetting Service

structure JoinStep [Blake2b] (c : Cluster) (node : String) (sh sh' : Shared) : Prop
    extends Lawful c node sh sh' where
  keeps : ∀ peer, peer ≠ node → ∀ pid, c.heldBy sh peer pid ⊆ c.heldBy sh' peer pid
  vouched : ∀ k peer ref, k ∈ c.heldBy sh peer k.pid →
    Vouched c ⟨k, peer, node⟩ sh (sh.progress peer ref) →
    Vouched c ⟨k, peer, node⟩ sh' (sh'.progress peer ref)

structure JoinReady (c : Cluster) (node : String) (pass : JoinPass) : Prop where
  timely : ∀ pid < pass.view.replicas.length, ∀ peer ∈ pass.view.sourcesOf pid,
    ∀ k ∈ c.heldBy pass.start peer pid, (k.ts.wallMs : Int) ≤ pass.cutoffMs
  vouched : ∀ pid < pass.view.replicas.length, ∀ peer ∈ pass.view.sourcesOf pid,
    ∀ ref, ((peer, pass.view.serial), ref) ∈ pass.start.refs →
      ∀ k ∈ c.heldBy pass.start peer pid,
        Vouched c ⟨k, peer, node⟩ pass.start (pass.start.progress peer ref)

structure CaughtUp [Blake2b] (c : Cluster) (node : String) (pass : JoinPass) (sh : Shared) : Prop where
  fromPrimary : ∀ pid, pass.view.isReplica pid node = true → ∀ p,
    pass.view.primarySource pid = some p → p ∉ pass.primary.skipped →
      ∀ k ∈ c.heldBy pass.start p pid, k.pid = pid → c.Kept ⟨k, p, node⟩ sh
  fromOthers : ∀ pid, pass.view.isReplica pid node = true → ∀ p,
    pass.view.primarySource pid = some p → p ∈ pass.primary.skipped →
      ∀ q ∈ pass.view.sourcesOf pid, q ≠ p → q ≠ node → q ∉ pass.fallback.skipped →
        ∀ k ∈ c.heldBy pass.start q pid, k.pid = pid → c.Kept ⟨k, q, node⟩ sh

section Join

variable [Blake2b] {c : Cluster} {sv : Service} {view : ReplicaView}

def PassSetting.joined (view : ReplicaView) (cutoffMs : Int) {k : Key} (hk : k.Encodable)
    {q : String} (hq : q ≠ sv.node)
    (henv : ∀ tick sh, JoinStep c sv.node sh (c.env.step tick sh)) : PassSetting where
  key := k
  src := q
  dst := sv.node
  c := c
  sv := sv
  view := view
  cutoffMs := cutoffMs
  partner := q
  anchored := True
  watched := False
  K _ := True
  encodable := hk
  fixed := .inl trivial
  faces := by
    rintro r _ (⟨heq, _⟩ | ⟨heq, _⟩)
    · exact absurd heq hq
    · exact heq.symm
  closed heq := absurd heq hq
  served _ _ := .inl rfl
  home := unwatched_home view k q
  stepGood tick sh := (henv tick sh).good
  congrK _ _ _ _ _ := trivial
  stepK _ _ _ := trivial
  writeK _ _ _ _ _ _ _ _ := trivial
  stepAnchor _ tick sh hin := (henv tick sh).keeps q hq k.pid hin
  stepGone := unwatched_gone c k q
  stepKept tick sh := (henv tick sh).retained _
  stepVouched tick sh ref hin := (henv tick sh).vouched k q ref (hin trivial)
  stepRefs tick sh ref h := (henv tick sh).refs _ h

namespace PassSetting

variable {T : PassSetting}

structure Joined (T : PassSetting) (pass : JoinPass) (w : World) : Prop where
  fromPrimary : T.view.primarySource T.key.pid = some T.src → T.src ∉ pass.primary.skipped →
    T.Settled w
  fromOthers : ∀ p, T.view.primarySource T.key.pid = some p → p ∈ pass.primary.skipped →
    T.src ∈ T.view.sourcesOf T.key.pid → T.src ≠ p → T.src ∉ pass.fallback.skipped → T.Settled w

def Serving (T : PassSetting) : Prop :=
  T.dst = T.sv.node ∧ T.src ≠ T.sv.node ∧ T.view.isReplica T.key.pid T.sv.node = true ∧ T.Timely

theorem settled_of_target {zs : List Handled} {targets : List (String × List Nat)}
    (hperm : (zs.map Prod.fst).Perm targets) {w : World} (hrep : ∀ x ∈ zs, T.Reported true x w)
    (hserving : T.Serving) (hfailed : (zs.foldl Exchange.record {}).failed = []) {pids : List Nat}
    (ht : (T.src, pids) ∈ targets) (hp : T.key.pid ∈ pids)
    (hs : T.src ∉ (zs.foldl Exchange.record {}).skipped) : T.Settled w := by
  obtain ⟨hdst, _, hreplica, htime⟩ := hserving
  obtain ⟨recent, hx⟩ := completed_of_target hfailed (hperm.mem_iff.mpr ht) hs
  have hfaced : T.Faced T.src := .inr ⟨rfl, hdst⟩
  rw [← hdst] at hreplica
  exact (hrep _ hx recent rfl hfaced hp).1 hreplica htime

theorem spec_joinPass (w₀ : World) (hcut : T.cutoffMs = T.c.env.nowMs (w₀.tick + 1))
    (hnode : T.view.nodeId = T.sv.node) (epoch : Nat) :
    T.protocol.Spec (fun w => w = w₀) (T.sv.joinPass T.c T.view epoch) fun r w =>
      (r.2.start = w₀.shared ∧ r.2.view = T.view ∧ r.2.cutoffMs = T.cutoffMs) ∧
        (r.1 = false → T.Serving → T.Joined r.2 w) := by
  apply Spec.bind (Spec.get (Q := fun a w => a = w₀ ∧ w = w₀) fun _ _ h => ⟨h, h⟩)
  intro start
  apply Spec.assume (p := start = w₀) fun _ _ h => h.1
  rintro rfl
  apply Spec.bind (M := fun _ w => w.tick = start.tick + 1)
  · apply Spec.modify
    rintro w hw ⟨_, rfl⟩
    exact ⟨.inr (move_env hw), rfl⟩
  intro _
  dsimp only
  apply Spec.bind (spec_nowMs hcut)
  intro cutoffMs
  apply Spec.assume (p := cutoffMs = T.cutoffMs) fun _ _ h => h
  rintro rfl
  have hprimaries : ∀ x ∈ joinSources T.view, x.1 ≠ T.sv.node := by
    intro x hx
    rw [← hnode]
    exact joinSources_elsewhere x hx
  have hprimary (result : Exchange) (w : World) (zs : List Handled)
      (heq : result = zs.foldl Exchange.record {})
      (hperm : (zs.map Prod.fst).Perm (joinSources T.view))
      (hrep : ∀ x ∈ zs, T.Reported true x w) (hfailed : result.failed = []) (hserving : T.Serving)
      (hp : T.view.primarySource T.key.pid = some T.src) (hs : T.src ∉ result.skipped) :
      T.Settled w := by
    subst heq
    have hreplica := hserving.2.2.1
    rw [← hnode] at hreplica
    obtain ⟨pids, ht, hpid⟩ := mem_joinSources hreplica hp
    exact settled_of_target hperm hrep hserving hfailed ht hpid hs
  have hfallback (result : Exchange) (hserving : T.Serving) (p : String)
      (hp : T.view.primarySource T.key.pid = some p) (hdown : p ∈ result.skipped)
      (hsrc : T.src ∈ T.view.sourcesOf T.key.pid) (hne : T.src ≠ p) :
      ∃ pids, (T.src, pids) ∈ fallbackSources T.view (joinSources T.view) result.skipped ∧
        T.key.pid ∈ pids := by
    have hreplica := hserving.2.2.1
    rw [← hnode] at hreplica
    obtain ⟨pids, ht, hpid⟩ := mem_joinSources hreplica hp
    have hself := hserving.2.1
    rw [← hnode] at hself
    exact mem_fallbackSources (nodup_gather _) ht hpid hdown hsrc hne hself
  apply Spec.bind (spec_exchange hprimaries epoch sourcePhases true).anywhere
  intro result
  split
  · rename_i hnone
    apply Spec.ret
    rintro w _ ⟨zs, heq, hperm, hrep⟩
    refine ⟨⟨rfl, rfl, rfl⟩, ?_⟩
    intro hok hserving
    have hfailed : result.failed = [] := not_not.mp (of_decide_eq_false hok)
    refine ⟨hprimary result w zs heq hperm hrep hfailed hserving, ?_⟩
    intro p hp hdown hsrc hne _
    obtain ⟨pids, ht, _⟩ := hfallback result hserving p hp hdown hsrc hne
    rw [hnone] at ht
    cases ht
  · have hothers : ∀ x ∈ fallbackSources T.view (joinSources T.view) result.skipped,
        x.1 ≠ T.sv.node := by
      intro x hx
      rw [← hnode]
      exact fallbackSources_elsewhere x hx
    have hstable : T.protocol.Stable fun w => ∃ zs : List Handled,
        result = zs.foldl Exchange.record {} ∧
          (zs.map Prod.fst).Perm (joinSources T.view) ∧ ∀ x, x ∈ zs → T.Reported true x w :=
      Stable.exists fun zs => (Stable.const _).and ((Stable.const _).and
        (Stable.forall fun x => (stable_reported true x).imp))
    apply Spec.seq hstable (spec_exchange hothers epoch sourcePhases true).anywhere
    intro again
    apply Spec.ret
    rintro w _ ⟨⟨zs, heq, hperm, hrep⟩, ys, rfl, hperm', hrep'⟩
    refine ⟨⟨rfl, rfl, rfl⟩, ?_⟩
    intro hok hserving
    obtain ⟨hfailed, hfailed'⟩ := Bool.or_eq_false_iff.mp hok
    refine ⟨hprimary result w zs heq hperm hrep (not_not.mp (of_decide_eq_false hfailed)) hserving, ?_⟩
    intro p hp hdown hsrc hne hs
    obtain ⟨pids, ht, hpid⟩ := hfallback result hserving p hp hdown hsrc hne
    exact settled_of_target hperm' hrep' hserving (not_not.mp (of_decide_eq_false hfailed')) ht hpid hs

end PassSetting

theorem join_maintained (henv : ∀ tick sh, JoinStep c sv.node sh (c.env.step tick sh)) :
    Maintained c sv view fun _ => True where
  step tick sh := (henv tick sh).toLawful
  congrK _ _ _ _ _ := trivial
  stepK _ _ _ := trivial
  writeK _ _ _ _ _ _ _ _ _ := trivial

theorem joined_inv {cutoffMs : Int} {k : Key} {hk : k.Encodable} {q : String} {hq : q ≠ sv.node}
    {henv : ∀ tick sh, JoinStep c sv.node sh (c.env.step tick sh)} {w : World} (hgood : c.Good w.shared)
    (hin : k ∈ c.heldBy w.shared q k.pid) (hvouched : ∀ ref, ((q, view.serial), ref) ∈ w.shared.refs →
      Vouched c ⟨k, q, sv.node⟩ w.shared (w.shared.progress q ref)) : (joined view cutoffMs hk hq henv).Inv w where
  stores := ⟨hgood, trivial, fun _ => hin⟩
  honest ref href := .inl (honest_of_vouched (hvouched ref href))

structure JoinOutcome (c : Cluster) (node : String) (pass : JoinPass) (w : World) : Prop where
  caughtUp : JoinReady c node pass → Distinguished w → CaughtUp c node pass w.shared

theorem spec_standing_joinPass (hnode : view.nodeId = sv.node)
    (henv : ∀ tick sh, JoinStep c sv.node sh (c.env.step tick sh)) (epoch : Nat) :
    (standing c sv.node fun _ => True).Spec (fun _ => True) (sv.joinPass c view epoch)
      fun r w => r.1 = false → JoinOutcome c sv.node r.2 w := by
  intro w hw _
  obtain ⟨p, hp⟩ := exists_other sv.node
  have hobserver := spec_joinPass
    (T := observer (join_maintained henv) (c.env.nowMs (w.tick + 1))
      originKey_encodable hp) w rfl hnode epoch w (observer_inv hw) rfl
  refine ⟨observer_reach hw hobserver.1, ?_⟩
  rintro ⟨failed, pass⟩ hrun rfl
  obtain ⟨⟨hstart, hpview, hcutoff⟩, _⟩ := hobserver.2 _ hrun
  change pass.start = w.shared at hstart
  change pass.view = view at hpview
  change pass.cutoffMs = c.env.nowMs (w.tick + 1) at hcutoff
  obtain ⟨start, current, cutoffMs, primary, fallback⟩ := pass
  subst hstart hpview hcutoff
  refine ⟨?_⟩
  intro hready hdist
  have hkept (q : String) (hq : q ≠ sv.node) (k : Key)
      (hrep : current.isReplica k.pid sv.node = true) (hs : q ∈ current.sourcesOf k.pid)
      (hk : k ∈ c.heldBy w.shared q k.pid) :
      (current.primarySource k.pid = some q → q ∉ primary.skipped →
        c.Kept ⟨k, q, sv.node⟩ (sv.joinPass c current epoch w).2.shared) ∧
      ∀ p, current.primarySource k.pid = some p → p ∈ primary.skipped → q ≠ p →
        q ∉ fallback.skipped → c.Kept ⟨k, q, sv.node⟩ (sv.joinPass c current epoch w).2.shared := by
    have hkey : k.Encodable := (hw.good q (c.groupFor k.pid)).toSound.encodable_of_held hk
    have hlt := isReplica_lt hrep
    have hinv : (joined current (c.env.nowMs (w.tick + 1)) hkey hq henv).Inv w :=
      joined_inv hw.good hk fun ref href => hready.vouched k.pid hlt q hs ref href k hk
    obtain ⟨hreach, hpost⟩ := spec_joinPass
      (T := joined current (c.env.nowMs (w.tick + 1)) hkey hq henv) w rfl hnode
      epoch w hinv rfl
    have hend := (hreach.inv hinv).stores.anchor trivial
    obtain ⟨_, hjoined⟩ := hpost _ hrun
    have hserved := hjoined rfl ⟨rfl, hq, hrep, hready.timely k.pid hlt q hs k hk⟩
    refine ⟨?_, ?_⟩
    · intro hp hskip
      exact (hserved.fromPrimary hp hskip).resolve_right hdist.not_collided hend
    · intro p hp hdown hne hskip
      exact (hserved.fromOthers p hp hdown hs hne hskip).resolve_right hdist.not_collided hend
  refine ⟨?_, ?_⟩
  · rintro pid hrep p hp hskip k hk rfl
    obtain ⟨hs, hne⟩ := primarySource_candidate hp
    exact (hkept p (hnode ▸ hne) k hrep hs hk).1 hp hskip
  · rintro pid hrep p hp hdown q hs hne hq hskip k hk rfl
    exact (hkept q hq k hrep hs hk).2 p hp hdown hne hskip

theorem spec_waitJoined (henv : ∀ tick sh, JoinStep c sv.node sh (c.env.step tick sh)) :
    (standing c sv.node fun _ => True).Spec (fun _ => True) (sv.waitJoined c) (JoinOutcome c sv.node) := by
  have hstep (tick : Nat) (sh : Shared) : Lawful c sv.node sh (c.env.step tick sh) := (henv tick sh).toLawful
  have hpause {A : World → Prop} : (standing c sv.node fun _ => True).Spec A
      (do c.interfere; pure (.inl ()) : Ae (Unit ⊕ JoinPass))
      fun r w => r.elim (fun _ => True) fun pass => JoinOutcome c sv.node pass w := by
    apply Spec.bind (spec_standing_interfere hstep fun _ _ _ => trivial)
    intro _
    exact Spec.ret fun _ _ _ => trivial
  refine (Spec.iterate (I := fun _ _ => True) ?_ _ _).anywhere
  intro b
  apply Spec.bind (spec_waitReady hstep fun _ _ _ => trivial)
  rintro ⟨view, epoch⟩
  apply Spec.assume (p := view.Coherent sv.node) fun _ _ h => h
  intro hcoherent
  dsimp only
  split
  · exact hpause
  · apply Spec.bind (spec_standing_joinPass hcoherent.1 henv epoch).anywhere
    rintro ⟨failed, pass⟩
    apply Spec.bind (Spec.get (Q := fun _ w => failed = false → JoinOutcome c sv.node pass w) fun _ _ h => h)
    intro w
    split
    · rename_i hdone
      apply Spec.ret
      intro _ _ h
      apply h
      rw [Bool.and_eq_true_iff] at hdone
      exact Bool.not_eq_true' failed ▸ hdone.1
    · exact hpause

theorem waitJoined_catches_up (sv : Service) {w : World} {pass : JoinPass}
    (hgood : c.Good w.shared) (htracked : Tracked sv.node w.shared.nodes)
    (henv : ∀ tick sh, JoinStep c sv.node sh (c.env.step tick sh))
    (hrun : (sv.waitJoined c w).1 = .ok pass) (hdist : Distinguished (sv.waitJoined c w).2)
    (hready : JoinReady c sv.node pass) : CaughtUp c sv.node pass (sv.waitJoined c w).2.shared := by
  have hpost := (spec_waitJoined henv w ⟨hgood, htracked, trivial⟩ trivial).2 pass hrun
  exact hpost.caughtUp hready hdist

end Join

namespace Sample

def joinView : ReplicaView :=
  { nodeId := "a"
    serial := "ring"
    replicas := [["a"], ["a"]]
    shared := []
    sources := [["b"], ["b"]]
    owns := true }

def joining (wallMs : Nat) : World :=
  let sh := (only ["a"] "b" wallMs).shared
  world { sh with nodes := fun n => { sh.nodes n with tracker := ⟨some joinView, 0⟩ } }

theorem joining_good {wallMs : Nat} (h : wallMs < 256 ^ 8) (env : Env) :
    (cluster env).Good (joining wallMs).shared := only_good ["a"] "b" h env

theorem joining_tracked (wallMs : Nat) : Tracked "a" (joining wallMs).shared.nodes := by
  rintro v ⟨⟩
  exact ⟨rfl, nofun⟩

theorem still_joinStep (nowMs : Int) (tick : Nat) (sh : Shared) :
    JoinStep (cluster (still nowMs)) "a" sh ((cluster (still nowMs)).env.step tick sh) where
  toLawful := Lawful.refl _ _ _
  keeps _ _ _ := Finset.Subset.refl _
  vouched _ _ _ _ h := h

theorem join_misses_future_version :
    (∃ pass, ((service "a").waitJoined (cluster (still 0)) (joining 1)).1 = .ok pass ∧
      (version 1).key ∈ (pass.start.storage "b" 0).held ∧
      pass.view.primarySource 0 = some "b" ∧ "b" ∉ pass.primary.skipped) ∧
    (((service "a").waitJoined (cluster (still 0)) (joining 1)).2.shared.storage "a" 0).held = ∅ := by
  have hcheck : ∃ pass ∈ ((service "a").waitJoined (cluster (still 0)) (joining 1)).1.toOption,
      (version 1).key ∈ (pass.start.storage "b" 0).held ∧
      pass.view.primarySource 0 = some "b" ∧ "b" ∉ pass.primary.skipped := by
    decide +kernel
  obtain ⟨pass, hrun, hpass⟩ := hcheck
  exact ⟨⟨pass, mem_toOption.mp hrun, hpass⟩, by decide +kernel⟩

theorem join_fetches_version : ∃ pass, ((service "a").waitJoined (cluster (still 9)) (joining 5)).1 = .ok pass ∧
      CaughtUp (cluster (still 9)) "a" pass ((service "a").waitJoined (cluster (still 9)) (joining 5)).2.shared ∧
      (version 5).key ∈ (((service "a").waitJoined (cluster (still 9))
        (joining 5)).2.shared.storage "a" 0).held := by
  have hcheck : ∃ pass ∈ ((service "a").waitJoined (cluster (still 9)) (joining 5)).1.toOption,
      pass.start.refs = [] ∧ ∀ pid < pass.view.replicas.length, ∀ peer ∈ pass.view.sourcesOf pid,
        ∀ k ∈ (cluster (still 9)).heldBy pass.start peer pid,
          (k.ts.wallMs : Int) ≤ pass.cutoffMs := by
    decide +kernel
  have hdist : Distinguished
      ((service "a").waitJoined (cluster (still 9)) (joining 5)).2 := by
    decide +kernel
  obtain ⟨pass, hrun, hrefs, htimely⟩ := hcheck
  have hready : JoinReady (cluster (still 9)) "a" pass := by
    refine ⟨htimely, ?_⟩
    intro pid _ peer _ ref href
    rw [hrefs] at href
    cases href
  have hfinal := waitJoined_catches_up (service "a") (joining_good (by decide) _)
    (joining_tracked _) (still_joinStep 9) (mem_toOption.mp hrun) hdist hready
  exact ⟨pass, mem_toOption.mp hrun, hfinal, by decide +kernel⟩

end Sample

end Tourillon
