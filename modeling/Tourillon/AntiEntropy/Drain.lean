import Tourillon.AntiEntropy.Passes

namespace Tourillon

open Exceptional Prog Protocol PassSetting Exchange List

structure DrainStep [Blake2b] (c : Cluster) (node : String) (sh sh' : Shared) : Prop
    extends Lawful c node sh sh' where
  admitsNone : ∀ pid, c.heldBy sh' node pid ⊆ c.heldBy sh node pid
  vouched : ∀ k peer ref, Vouched c ⟨k, node, peer⟩ sh (sh.progress peer ref) →
    Vouched c ⟨k, node, peer⟩ sh' (sh'.progress peer ref)

def Cluster.Placed (c : Cluster) (node : String) (sh : Shared) : Prop :=
  ∀ k : Key, k ∈ c.heldBy sh node k.pid →
    c.groupFor k.pid < c.partitioner.totalGroups

structure HandedOff (c : Cluster) (node : String) (pass : DrainPass) (sh : Shared) (k : Key) :
    Prop where
  listed : ∃ x ∈ pass.exchanges, k.pid ∈ x.1
  reached : ∀ x ∈ pass.exchanges, k.pid ∈ x.1 →
    ∃ r ∈ pass.view.replicasOf k.pid, r ∉ x.2.skipped
  kept : ∀ x ∈ pass.exchanges, k.pid ∈ x.1 → ∀ r ∈ pass.view.replicasOf k.pid,
    r ∉ x.2.skipped → c.Kept ⟨k, node, r⟩ sh

section Drain

variable [Blake2b] {c : Cluster} {sv : Service} {view : ReplicaView}

def PassSetting.drained {view : ReplicaView} (hview : ∀ pid, view.isReplica pid sv.node = false)
    (cutoffMs : Int) {k : Key} (hk : k.Encodable) (r : String)
    (henv : ∀ tick sh, DrainStep c sv.node sh (c.env.step tick sh)) : PassSetting where
  key := k
  src := sv.node
  dst := r
  c := c
  sv := sv
  view := view
  cutoffMs := cutoffMs
  partner := r
  anchored := False
  watched := True
  K _ := True
  encodable := hk
  fixed := .inr (.inl trivial)
  faces := source_faces sv r
  closed _ _ := hview k.pid
  served := source_served sv view k r
  home _ := hview k.pid
  stepGood tick sh := (henv tick sh).good
  congrK _ _ _ _ _ := trivial
  stepK _ _ _ := trivial
  writeK _ _ _ _ _ _ _ _ := trivial
  stepAnchor := nofun
  stepGone _ tick sh hgone hin := hgone ((henv tick sh).admitsNone k.pid hin)
  stepKept tick sh := (henv tick sh).retained _
  stepVouched tick sh ref _ := (henv tick sh).vouched k r ref
  stepRefs tick sh _ h := (henv tick sh).refs _ h

namespace PassSetting

variable {T : PassSetting} {peers : List (String × List Nat)} {w : World} {after : Option Nat} {pids : List Nat}
  {zs : List Handled} {complete : Bool} {exchanges : List (List Nat × Exchange)} {next : Option Nat}
  {roots : List (Nat × DigestCell)}

def Unseen (T : PassSetting) (group : Nat) (g : GroupStorage) (w : World) : Prop :=
  T.src = T.sv.node → group = T.c.groupFor T.key.pid → T.key ∉ g.held →
    T.watched → ¬ T.Held w.shared

theorem watch : Watch T.protocol T.c T.sv.node T.Unseen where
  good w hw group := hw.stores.good T.sv.node group
  env w hw := move_env hw
  fold w sets hw := move_same hw rfl rfl rfl rfl fun _ h => mem_append_right _ h
  now w group _ := by
    rintro hsrc rfl hout _ hin
    rw [Held, Cluster.heldBy, hsrc] at hin
    exact hout hin
  stable _ _ := stable_gone.imp.imp.imp
  folded := stable_folded

structure Handed (T : PassSetting) (x : List Nat × Exchange) (w : World) : Prop where
  reached : ∃ r ∈ T.view.replicasOf T.key.pid, r ∉ x.2.skipped
  settled : T.src = T.sv.node → T.dst ∈ T.view.replicasOf T.key.pid → T.dst ∉ x.2.skipped →
    T.Timely → T.Settled w

theorem stable_handed (x : List Nat × Exchange) : T.protocol.Stable (T.Handed x) := by
  intro w w' hw hm h
  refine ⟨h.reached, ?_⟩
  intro hsrc hdst hskip htime
  exact hm.settled (h.settled hsrc hdst hskip htime)

theorem handed_of_exchange (hn : pids.Nodup) (hpeers : targets T.view pids = .ok peers)
    (hperm : (zs.map Prod.fst).Perm peers) (hrep : ∀ x ∈ zs, T.Reported true x w)
    (hall : handedAll T.view pids (zs.foldl record {}) = true) (hp : T.key.pid ∈ pids) :
    T.Handed (pids, zs.foldl record {}) w := by
  have hpid := all_eq_true.mp hall T.key.pid hp
  simp only [ne_eq, Bool.and_eq_true, decide_eq_true_eq] at hpid
  obtain ⟨hneeded, hcount⟩ := hpid
  refine ⟨?_, ?_⟩
  · obtain ⟨r, hr⟩ := exists_mem_of_ne_nil _ hneeded
    obtain ⟨hr, hskip⟩ := mem_filter.mp hr
    exact ⟨r, hr, of_decide_eq_true hskip⟩
  · intro hsrc hdst hskip htime
    obtain ⟨hnames, hcounts⟩ := tally_targets hpeers hn hp hperm
    obtain ⟨x, hx, hxp, hreach⟩ := reached_all hnames hcounts hcount hdst hskip
    obtain ⟨recent, hdone, _⟩ := Handled.reaches_iff.mp hreach
    have hmem : T.key.pid ∈ x.1.2 := by
      rw [← count_pos_iff, hcounts x hx, count_pos_iff, hxp]
      exact hdst
    have hfaced : T.Faced x.1.1 := .inl ⟨hsrc, hxp.symm⟩
    exact (hrep x hx recent hdone hfaced hmem).1 (decide_eq_true hdst) htime

structure Passed (T : PassSetting) (after : Option Nat) (complete : Bool)
    (exchanges : List (List Nat × Exchange)) (w : World) : Prop where
  handed : complete = true → ∀ x ∈ exchanges, T.key.pid ∈ x.1 → T.Handed x w
  covered : T.src = T.sv.node → T.watched → T.c.groupFor T.key.pid < T.c.partitioner.totalGroups →
    (∃ a ∈ after, T.key.pid ≤ a) → (∃ x ∈ exchanges, T.key.pid ∈ x.1) ∨ ¬ T.Held w.shared

def Finished (T : PassSetting) (complete : Bool) (exchanges : List (List Nat × Exchange)) (w : World) : Prop :=
  complete = true → (∀ x ∈ exchanges, T.key.pid ∈ x.1 → T.Handed x w) ∧
    (T.src = T.sv.node → T.watched → T.c.groupFor T.key.pid < T.c.partitioner.totalGroups →
      (∃ x ∈ exchanges, T.key.pid ∈ x.1) ∨ ¬ T.Held w.shared)

theorem stable_passed : T.protocol.Stable (T.Passed after complete exchanges) := by
  intro w w' hw hm h
  refine ⟨?_, ?_⟩
  · intro hc x hx hp
    exact stable_handed x w w' hw hm (h.handed hc x hx hp)
  · intro hsrc hwatched hgroup hle
    exact (h.covered hsrc hwatched hgroup hle).imp id (hm.gone hwatched)

theorem covered_page (hroots : Watch.RootsListed T.c T.Unseen after next roots w) (hsrc : T.src = T.sv.node)
    (hwatched : T.watched) (hgroup : T.c.groupFor T.key.pid < T.c.partitioner.totalGroups)
    (ha : ∀ a ∈ after, a < T.key.pid) (hb : ∀ b ∈ next, T.key.pid ≤ b) :
    T.key.pid ∈ roots.map Prod.fst ∨ ¬ T.Held w.shared := by
  apply (hroots.covered T.key.pid T.encodable.1 hgroup ha hb).imp id
  rintro ⟨g, hobs, hempty⟩
  apply hobs hsrc rfl _ hwatched
  intro hin
  have hcounted : T.key ∈ g.counted (rootRef T.key.pid) := by
    rw [GroupStorage.counted, Finset.mem_filter]
    exact ⟨hin, by simp [cellRefs]⟩
  rw [hempty] at hcounted
  exact absurd hcounted (Finset.notMem_empty _)

theorem passed_page (h : T.Passed after complete exchanges w)
    (hroots : Watch.RootsListed T.c T.Unseen after next roots w)
    (hpeers : targets T.view (roots.map Prod.fst) = .ok peers) (hperm : (zs.map Prod.fst).Perm peers)
    (hrep : ∀ x ∈ zs, T.Reported true x w) : T.Passed next (complete && handedAll T.view (roots.map Prod.fst)
        (zs.foldl record {})) (exchanges ++ [(roots.map Prod.fst, zs.foldl record {})]) w ∧
    (next = none → T.Finished (complete && handedAll T.view (roots.map Prod.fst) (zs.foldl record {}))
        (exchanges ++ [(roots.map Prod.fst, zs.foldl record {})]) w) := by
  have hnodup : (roots.map Prod.fst).Nodup := (pairwise_map.mpr hroots.sorted).imp fun hlt => hlt.ne
  have hhanded (hc : (complete && handedAll T.view (roots.map Prod.fst)
      (zs.foldl record {})) = true) (x : List Nat × Exchange)
      (hx : x ∈ exchanges ++ [(roots.map Prod.fst, zs.foldl record {})])
      (hp : T.key.pid ∈ x.1) : T.Handed x w := by
    obtain ⟨hcomplete, hall⟩ := Bool.and_eq_true_iff.mp hc
    rcases mem_append.mp hx with hx | hx
    · exact h.handed hcomplete x hx hp
    · rw [mem_singleton.mp hx] at hp ⊢
      exact handed_of_exchange hnodup hpeers hperm hrep hall hp
  have hcovered (hsrc : T.src = T.sv.node) (hwatched : T.watched)
      (hgroup : T.c.groupFor T.key.pid < T.c.partitioner.totalGroups)
      (hb : ∀ b ∈ next, T.key.pid ≤ b) :
      (∃ x ∈ exchanges ++ [(roots.map Prod.fst, zs.foldl record {})], T.key.pid ∈ x.1) ∨
        ¬ T.Held w.shared := by
    by_cases hle : ∃ a ∈ after, T.key.pid ≤ a
    · apply (h.covered hsrc hwatched hgroup hle).imp _ id
      rintro ⟨x, hx, hp⟩
      exact ⟨x, mem_append_left _ hx, hp⟩
    · have ha (a : Nat) (ham : a ∈ after) : a < T.key.pid := by
        by_contra hge
        exact hle ⟨a, ham, not_lt.mp hge⟩
      apply (covered_page hroots hsrc hwatched hgroup ha hb).imp _ id
      intro hp
      exact ⟨_, mem_append_right _ (mem_singleton_self _), hp⟩
  refine ⟨?_, ?_⟩
  · refine ⟨hhanded, ?_⟩
    rintro hsrc hwatched hgroup ⟨a, ham, hle⟩
    apply hcovered hsrc hwatched hgroup
    intro b hb
    cases ham
    cases hb
    exact hle
  · rintro rfl hc
    refine ⟨hhanded hc, ?_⟩
    intro hsrc hwatched hgroup
    exact hcovered hsrc hwatched hgroup nofun

theorem targets_elsewhere (hview : ∀ pid ∈ pids, T.view.isReplica pid T.sv.node = false)
    (h : targets T.view pids = .ok peers) : ∀ x ∈ peers, x.1 ≠ T.sv.node := by
  intro x hx heq
  obtain ⟨pid, hpid, hrep⟩ := target_replica h hx
  have hno := hview pid hpid
  rw [← heq, ReplicaView.isReplica, decide_eq_false_iff_not] at hno
  exact hno hrep

theorem spec_nowMs {tick : Nat} (hcut : T.cutoffMs = T.c.env.nowMs tick) :
    T.protocol.Spec (fun w => w.tick = tick) (Service.nowMs T.c) fun ms _ => ms = T.cutoffMs := by
  apply Spec.bind (M := fun (w : World) _ => w.tick = tick) (Spec.get fun _ _ h => h)
  intro w
  apply Spec.ret
  intro _ _ htick
  rw [hcut, htick]

theorem spec_drainPass (w₀ : World) (hcut : T.cutoffMs = T.c.env.nowMs w₀.tick)
    (hview : ∀ pid, T.view.isReplica pid T.sv.node = false) (epoch : Nat) :
    T.protocol.Spec (fun w => w = w₀) (T.sv.drainPass T.c T.view epoch) fun r w =>
      (r.2.start = w₀.shared ∧ r.2.view = T.view ∧ r.2.cutoffMs = T.cutoffMs) ∧ T.Finished r.1 r.2.exchanges w := by
  apply Spec.bind (Spec.get (Q := fun a w => a = w₀ ∧ w = w₀) fun _ _ h => ⟨h, h⟩)
  intro start
  apply Spec.assume (p := start = w₀) fun _ _ h => h.1
  rintro rfl
  apply Spec.bind ((spec_nowMs hcut).pre fun _ _ h => congrArg World.tick h.2)
  intro cutoffMs
  apply Spec.assume (p := cutoffMs = T.cutoffMs) fun _ _ h => h
  rintro rfl
  apply Spec.bind (M := fun r w => T.Finished r.1 r.2 w)
  · refine (Spec.iterate (I := fun b w => T.Passed b.1 b.2.1 b.2.2 w) ?_ _ _).pre ?_
    · rintro ⟨after, complete, exchanges⟩
      dsimp only
      apply Spec.seq stable_passed (watch.spec_rootPage after T.sv.pidsPerCycle).anywhere
      rintro ⟨roots, next⟩
      have hroots : T.protocol.Stable fun w => T.Passed after complete exchanges w ∧
          Watch.RootsListed T.c T.Unseen after next roots w :=
        stable_passed.and (Watch.stable_rootsListed watch)
      dsimp only
      apply Spec.bind (M := fun peers w => (T.Passed after complete exchanges w ∧
          Watch.RootsListed T.c T.Unseen after next roots w) ∧
          targets T.view (roots.map Prod.fst) = .ok peers)
      · exact Spec.lift fun peers w _ h hpeers => ⟨h, mapError_eq_ok hpeers⟩
      intro peers
      apply Spec.assume (p := targets T.view (roots.map Prod.fst) = .ok peers) fun _ _ h => h.2
      intro hpeers
      apply Spec.seq (hroots.and (Stable.const _))
        (spec_exchange (targets_elsewhere (fun pid _ => hview pid) hpeers) epoch sessionPhases true).anywhere
      intro result
      apply Spec.bind (Spec.get (Q := fun _ w => T.Passed next
          (complete && handedAll T.view (roots.map Prod.fst) result)
          (exchanges ++ [(roots.map Prod.fst, result)]) w ∧
          (next = none → T.Finished (complete && handedAll T.view (roots.map Prod.fst) result)
            (exchanges ++ [(roots.map Prod.fst, result)]) w)) ?_)
      · intro w
        split
        · rename_i hend
          apply Spec.ret
          intro w' _ h hdone
          obtain ⟨hcomplete, hstale⟩ := Bool.and_eq_true_iff.mp hdone
          rw [Bool.or_eq_true, Option.isNone_iff_eq_none] at hend
          rcases hend with hnone | hs
          · exact h.2 hnone hcomplete
          · rw [hs] at hstale
            cases hstale
        · exact Spec.ret fun _ _ h => h.1
      · rintro w _ ⟨⟨⟨hpassed, hlisted⟩, _⟩, zs, rfl, hperm, hrep⟩
        exact passed_page hpassed hlisted hpeers hperm hrep
    · intro w _ _
      exact ⟨fun _ => nofun, nofun⟩
  · rintro ⟨done, exchanges⟩
    exact Spec.ret fun _ _ h => ⟨⟨rfl, rfl, rfl⟩, h⟩

end PassSetting

theorem drain_maintained (hview : ∀ pid, view.isReplica pid sv.node = false)
    (henv : ∀ tick sh, DrainStep c sv.node sh (c.env.step tick sh)) : Maintained c sv view (c.Placed sv.node) where
  step tick sh := (henv tick sh).toLawful
  congrK sh sh' hn _ h k hk := h k (by rwa [Cluster.heldBy, Shared.storage, hn] at hk)
  stepK tick sh h k hk := h k ((henv tick sh).admitsNone k.pid hk)
  writeK sh f s node pid g hs h hd := by
    intro k hk
    rw [Cluster.heldBy, Shared.storage_withGroup] at hk
    split at hk
    · rename_i heq
      have hrep := hd.replica
      rw [hs, ← heq.1, hview pid] at hrep
      cases hrep
    · exact h k hk

structure DrainReady (c : Cluster) (node : String) (pass : DrainPass) : Prop where
  timely : ∀ group < c.partitioner.totalGroups, ∀ k ∈ (pass.start.storage node group).held,
    (k.ts.wallMs : Int) ≤ pass.cutoffMs
  vouched : ∀ peer ref, ((peer, pass.view.serial), ref) ∈ pass.start.refs →
    ∀ group < c.partitioner.totalGroups, ∀ k ∈ (pass.start.storage node group).held,
      Vouched c ⟨k, node, peer⟩ pass.start (pass.start.progress peer ref)

structure DrainOutcome (c : Cluster) (node : String) (pass : DrainPass) (w : World) : Prop where
  handed : DrainReady c node pass → Distinguished w → ∀ k : Key,
    k ∈ c.heldBy w.shared node k.pid → HandedOff c node pass w.shared k

theorem drained_inv {hview : ∀ pid, view.isReplica pid sv.node = false} {cutoffMs : Int} {k : Key}
    {hk : k.Encodable} {r : String} {henv : ∀ tick sh, DrainStep c sv.node sh (c.env.step tick sh)}
    {w : World} (hgood : c.Good w.shared) (hvouched : ∀ ref, ((r, view.serial), ref) ∈ w.shared.refs →
      k ∈ c.heldBy w.shared sv.node k.pid → Vouched c ⟨k, sv.node, r⟩ w.shared (w.shared.progress r ref)) :
    (drained hview cutoffMs hk r henv).Inv w := by
  refine ⟨⟨hgood, trivial, nofun⟩, ?_⟩
  intro ref href
  left
  apply honest_of_vouched
  intro pos hpos hpass hin
  exact hvouched ref href hin pos hpos hpass hin

theorem spec_standing_drainPass (hview : ∀ pid, view.isReplica pid sv.node = false)
    (henv : ∀ tick sh, DrainStep c sv.node sh (c.env.step tick sh)) (epoch : Nat) :
    (standing c sv.node (c.Placed sv.node)).Spec (fun _ => True) (sv.drainPass c view epoch)
      fun r w => r.1 = true → DrainOutcome c sv.node r.2 w := by
  intro w hw _
  obtain ⟨p, hp⟩ := exists_other sv.node
  have hobserver := spec_drainPass
    (T := observer (drain_maintained hview henv) (c.env.nowMs w.tick)
      originKey_encodable hp) w rfl hview epoch w (observer_inv hw) rfl
  have hreach := observer_reach hw hobserver.1
  refine ⟨hreach, ?_⟩
  rintro ⟨done, pass⟩ hrun rfl
  obtain ⟨⟨hstart, hpview, hcutoff⟩, _⟩ := hobserver.2 _ hrun
  change pass.start = w.shared at hstart
  change pass.view = view at hpview
  change pass.cutoffMs = c.env.nowMs w.tick at hcutoff
  obtain ⟨start, current, cutoffMs, exchanges⟩ := pass
  subst hstart hpview hcutoff
  have hend := hreach.inv hw
  refine ⟨?_⟩
  intro hready hdist k hk
  have hgroup := hend.extra k hk
  have hkey : k.Encodable := (hend.good sv.node (c.groupFor k.pid)).toSound.encodable_of_held hk
  have hvouched (r : String) (ref : Nat)
      (href : ((r, current.serial), ref) ∈ w.shared.refs) (hin : k ∈ c.heldBy w.shared sv.node k.pid) :
      Vouched c ⟨k, sv.node, r⟩ w.shared (w.shared.progress r ref) :=
    hready.vouched r ref href _ (hw.extra k hin) k hin
  have hpass (r : String) := spec_drainPass
    (T := drained hview (c.env.nowMs w.tick) hkey r henv) w rfl hview epoch w
    (drained_inv hw.good (hvouched r)) rfl
  have hfinished (r : String) := (hpass r).2 _ hrun
  have htimely : (k.ts.wallMs : Int) ≤ c.env.nowMs w.tick := by
    have hin : k ∈ c.heldBy w.shared sv.node k.pid := by
      by_contra hout
      exact stable_gone.reach (hpass p).1 (drained_inv hw.good (hvouched p))
        (fun _ => hout) trivial hk
    exact hready.timely _ (hw.extra k hin) k hin
  refine ⟨?_, ?_, ?_⟩
  · exact (((hfinished p).2 rfl).2 rfl trivial hgroup).resolve_right fun hgone => hgone hk
  · intro x hx hp
    exact (((hfinished p).2 rfl).1 x hx hp).reached
  · intro x hx hp r hr hskip
    have hsettled := (((hfinished r).2 rfl).1 x hx hp).settled rfl hr hskip htimely
    exact hsettled.resolve_right hdist.not_collided hk

theorem spec_drain (henv : ∀ tick sh, DrainStep c sv.node sh (c.env.step tick sh)) :
    (standing c sv.node (c.Placed sv.node)).Spec (fun _ => True) (sv.drain c) (DrainOutcome c sv.node) := by
  have hstep (tick : Nat) (sh : Shared) : Lawful c sv.node sh (c.env.step tick sh) := (henv tick sh).toLawful
  have hplaced (tick : Nat) (sh : Shared) (h : c.Placed sv.node sh) :
      c.Placed sv.node (c.env.step tick sh) := by
    intro k hk
    exact h k ((henv tick sh).admitsNone k.pid hk)
  refine (Spec.iterate (I := fun _ _ => True) ?_ _ _).anywhere
  intro b
  apply Spec.bind (spec_waitReady hstep hplaced)
  rintro ⟨view, epoch⟩
  apply Spec.assume (p := view.Coherent sv.node) fun _ _ h => h
  intro hcoherent
  dsimp only
  split
  · apply Spec.bind (spec_standing_interfere hstep hplaced)
    intro _
    exact Spec.ret fun _ _ _ => trivial
  · rename_i howns
    have hview := hcoherent.2 (Bool.not_eq_true _ ▸ howns)
    apply Spec.bind (spec_standing_drainPass hview henv epoch).anywhere
    rintro ⟨done, pass⟩
    dsimp only
    split
    · rename_i hdone
      exact Spec.ret fun _ _ h => h hdone
    · apply Spec.bind (spec_standing_interfere hstep hplaced)
      intro _
      exact Spec.ret fun _ _ _ => trivial

theorem drain_hands_off (sv : Service) {w : World} {pass : DrainPass} (hgood : c.Good w.shared)
    (htracked : Tracked sv.node w.shared.nodes) (hplaced : c.Placed sv.node w.shared)
    (henv : ∀ tick sh, DrainStep c sv.node sh (c.env.step tick sh))
    (hrun : (sv.drain c w).1 = .ok pass) (hdist : Distinguished (sv.drain c w).2)
    (hready : DrainReady c sv.node pass) (k : Key) (hk : k ∈ c.heldBy (sv.drain c w).2.shared sv.node k.pid) :
    HandedOff c sv.node pass (sv.drain c w).2.shared k := by
  have hpost := (spec_drain henv w ⟨hgood, htracked, hplaced⟩ trivial).2 pass hrun
  exact hpost.handed hready hdist k hk

end Drain

theorem still_step [Blake2b] (nowMs : Int) (tick : Nat) (sh : Shared) :
    DrainStep (Sample.cluster (Sample.still nowMs)) "a" sh
      ((Sample.cluster (Sample.still nowMs)).env.step tick sh) where
  toLawful := Lawful.refl _ _ _
  admitsNone _ := Finset.Subset.refl _
  vouched _ _ _ h := h

namespace Sample

def service (node : String) : Service := ⟨node, limits, 16, 0, limits.keysPositive⟩

theorem drain_forgets_future_version :
    (∃ pass, ((service "a").drain (cluster (still 0)) (only ["b"] "a" 1)).1 = .ok pass ∧
      "b" ∈ pass.view.replicasOf 0 ∧ ∀ x ∈ pass.exchanges, "b" ∉ x.2.skipped) ∧
    (version 1).key ∈ (((service "a").drain (cluster (still 0)) (only ["b"] "a" 1)).2.shared.storage "a" 0).held ∧
    (((service "a").drain (cluster (still 0)) (only ["b"] "a" 1)).2.shared.storage "b" 0).held = ∅ := by
  have hcheck : ∃ pass ∈ ((service "a").drain (cluster (still 0)) (only ["b"] "a" 1)).1.toOption,
      "b" ∈ pass.view.replicasOf 0 ∧ ∀ x ∈ pass.exchanges, "b" ∉ x.2.skipped := by
    decide +kernel
  obtain ⟨pass, hrun, hpass⟩ := hcheck
  exact ⟨⟨pass, mem_toOption.mp hrun, hpass⟩, by decide +kernel, by decide +kernel⟩

theorem only_tracked (owner : String) (wallMs : Nat) : Tracked "a" (only ["b"] owner wallMs).shared.nodes := by
  rintro v ⟨⟩
  refine ⟨rfl, ?_⟩
  intro _ pid
  rcases pid with _ | _ | pid
  · rfl
  · rfl
  · rfl

theorem only_placed (owner : String) {wallMs : Nat} (h : wallMs < 256 ^ 8) (env : Env)
    (node : String) : (cluster env).Placed node (only ["b"] owner wallMs).shared := by
  intro k hk
  obtain ⟨_, hheld⟩ := shared_held ["b"] (fun k => k = (version wallMs).key)
    (onlyAt_version h owner) node ((cluster env).groupFor k.pid)
  rw [(hheld k hk).2]
  exact Nat.one_pos

theorem drain_hands_version_off :
    ∃ pass, ((service "a").drain (cluster (still 9)) (only ["b"] "a" 5)).1 = .ok pass ∧
      HandedOff (cluster (still 9)) "a" pass
        ((service "a").drain (cluster (still 9)) (only ["b"] "a" 5)).2.shared (version 5).key := by
  have hcheck : ∃ pass ∈ ((service "a").drain (cluster (still 9)) (only ["b"] "a" 5)).1.toOption,
      (∀ group < (cluster (still 9)).partitioner.totalGroups,
        ∀ k ∈ (pass.start.storage "a" group).held, (k.ts.wallMs : Int) ≤ pass.cutoffMs) ∧
      pass.start.refs = [] := by
    decide +kernel
  have hdist : Distinguished
      ((service "a").drain (cluster (still 9)) (only ["b"] "a" 5)).2 := by
    decide +kernel
  have hheld : (version 5).key ∈ (cluster (still 9)).heldBy
      ((service "a").drain (cluster (still 9)) (only ["b"] "a" 5)).2.shared "a"
      (version 5).key.pid := by
    decide +kernel
  obtain ⟨pass, hrun, htimely, hrefs⟩ := hcheck
  have hready : DrainReady (cluster (still 9)) "a" pass := by
    refine ⟨htimely, ?_⟩
    intro peer ref href
    rw [hrefs] at href
    cases href
  have hfinal := drain_hands_off (service "a") (only_good _ _ (by decide) _) (only_tracked _ _)
    (only_placed _ (by decide) _ _) (still_step 9) (mem_toOption.mp hrun) hdist hready _ hheld
  exact ⟨pass, mem_toOption.mp hrun, hfinal⟩

end Sample

end Tourillon
