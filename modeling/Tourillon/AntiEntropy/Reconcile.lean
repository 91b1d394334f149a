import Tourillon.AntiEntropy.RootSpec

namespace Tourillon

open Protocol TopVersions

def PeerSync.Ends (s : PeerSync) (node : String) : Prop := node = s.self ∨ node = s.peer

structure Quiet (env : Env) (s : PeerSync) : Prop where
  stores : ∀ tick sh node, s.Ends node → ∀ group,
    (env.step tick sh).storage node group = sh.storage node group
  progress : ∀ tick sh, (env.step tick sh).progress s.peer s.ref = sh.progress s.peer s.ref

structure Copied [Blake2b] (c : Cluster) (s : PeerSync) (start sh : Shared) : Prop where
  good : ∀ node, s.Ends node → ∀ group, GoodGroup c group (sh.storage node group)
  grows : ∀ node, s.Ends node → ∀ group, (start.storage node group).held ⊆ (sh.storage node group).held
  flows : ∀ node, s.Ends node → ∀ group, ∀ q ∈ (sh.storage node group).held,
    q ∈ (start.storage node group).held ∨ s.view.isReplica q.pid node = true

section Quiet

variable {c : Cluster} {s : PeerSync} {sh : Shared} {f : Focus}

theorem ends_of_faces (hf : s.Faces f) : s.Ends f.src ∧ s.Ends f.dst := by
  rcases hf with ⟨hs, hd⟩ | ⟨hs, hd⟩
  · exact ⟨.inl hs, .inr hd⟩
  · exact ⟨.inr hs, .inl hd⟩

theorem Quiet.heldBy (h : Quiet c.env s) (tick : Nat) {node : String} (hn : s.Ends node) (pid : Nat) :
    c.heldBy (c.env.step tick sh) node pid = c.heldBy sh node pid := by
  rw [Cluster.heldBy, h.stores tick sh node hn, Cluster.heldBy]

theorem Quiet.kept (h : Quiet c.env s) (hf : s.Faces f) (tick : Nat) :
    c.Kept f (c.env.step tick sh) ↔ c.Kept f sh := by
  rw [Cluster.Kept, h.heldBy tick (ends_of_faces hf).2, Cluster.Kept]

theorem Quiet.settled (h : Quiet c.env s) (hf : s.Faces f) (tick : Nat) :
    c.Settled f (c.env.step tick sh) ↔ c.Settled f sh := by
  rw [Cluster.Settled, h.kept hf, h.heldBy tick (ends_of_faces hf).1, Cluster.Settled]

variable [Blake2b] {start : Shared}

theorem copied_start (h : ∀ node, s.Ends node → ∀ group, GoodGroup c group (start.storage node group)) :
    Copied c s start start where
  good := h
  grows _ _ _ := Finset.Subset.refl _
  flows _ _ _ _ hq := .inl hq

theorem Copied.congr {sh' : Shared} (h : Copied c s start sh)
    (heq : ∀ node, s.Ends node → ∀ group, sh'.storage node group = sh.storage node group) :
    Copied c s start sh' where
  good node hn group := by
    rw [heq node hn group]
    exact h.good node hn group
  grows node hn group := by
    rw [heq node hn group]
    exact h.grows node hn group
  flows node hn group := by
    rw [heq node hn group]
    exact h.flows node hn group

theorem Copied.write (h : Copied c s start sh) {node : String} {pid : Nat} {g : GroupStorage}
    (hd : Delivery c s f sh node pid g) : Copied c s start (sh.withGroup node (c.groupFor pid) g) := by
  refine ⟨?_, ?_, ?_⟩
  · intro node' hn group
    rw [Shared.storage_withGroup]
    split
    · rename_i heq
      rw [heq.2]
      exact hd.good
    · exact h.good node' hn group
  · intro node' hn group
    rw [Shared.storage_withGroup]
    split
    · rename_i heq
      obtain ⟨rfl, rfl⟩ := heq
      exact (h.grows node' hn _).trans hd.grows
    · exact h.grows node' hn group
  · intro node' hn group q hq
    rw [Shared.storage_withGroup] at hq
    split at hq
    · rename_i heq
      obtain ⟨rfl, rfl⟩ := heq
      rcases hd.origin q hq with hold | rfl
      · exact h.flows node' hn _ q hold
      · exact .inr hd.replica
    · exact h.flows node' hn group q hq

structure QuietSession (c : Cluster) (s : PeerSync) (f : Focus) : Prop where
  distinct : s.self ≠ s.peer
  quiet : Quiet c.env s
  faces : s.Faces f
  encodable : f.key.Encodable

def QuietSession.setting (h : QuietSession c s f) (start : Shared) : Setting where
  toFocus := f
  c := c
  s := s
  J := Copied c s start
  encodable := h.encodable
  distinct := h.distinct
  good _ hJ := hJ.good
  selfClosed hsrc _ := by
    rcases h.faces with ⟨_, hd⟩ | ⟨hs, _⟩
    · exact .inl hd.symm
    · exact absurd (hsrc.trans hs) h.distinct
  peerClosed hsrc _ := by
    rcases h.faces with ⟨hs, _⟩ | ⟨_, hd⟩
    · exact absurd (hsrc.trans hs).symm h.distinct
    · exact .inl hd.symm
  step tick sh hJ := hJ.congr (h.quiet.stores tick sh)
  stepKept tick sh _ hk := (h.quiet.kept h.faces tick).mpr hk
  stepSettled tick sh _ hk := (h.quiet.settled h.faces tick).mpr hk
  stepHonest tick sh _ hp := by
    rw [h.quiet.progress]
    intro hserve htime pos hpos hpass
    exact (h.quiet.settled h.faces tick).mpr (hp hserve htime pos hpos hpass)
  write sh node pid g hJ hd := hJ.write hd
  progress sh p hJ := hJ.congr fun _ _ _ => rfl

theorem QuietSession.outcome {w : World} (h : QuietSession c s f)
    (hstored : ∀ node, s.Ends node → ∀ group, GoodGroup c group (w.shared.storage node group))
    (hfresh : w.shared.progress s.peer s.ref = {}) {pids : List Nat}
    (hrun : (s.syncRoots c pids w).1 = .ok ()) (hdist : Distinguished (s.syncRoots c pids w).2) :
    Copied c s w.shared (s.syncRoots c pids w).2.shared ∧
      (f.key.pid ∈ pids → s.view.isReplica f.key.pid f.dst = true → s.Timely f.key →
        c.Settled f (s.syncRoots c pids w).2.shared) := by
  have hinv : (h.setting w.shared).protocol.inv w := by
    refine ⟨copied_start hstored, .inl ?_⟩
    intro _ _ pos hpos
    change (w.shared.progress s.peer s.ref).positions f.key.pid = some pos at hpos
    rw [hfresh] at hpos
    cases hpos
  obtain ⟨hreach, hpost⟩ := Setting.spec_syncRoots (S := h.setting w.shared) pids w hinv trivial
  refine ⟨(hreach.inv hinv).1, ?_⟩
  intro hp hrep htime
  have hsettled := (hpost () hrun f.key.pid hp h.faces rfl).1 hrep htime
  exact hsettled.resolve_right hdist.not_collided

end Quiet

structure Reconciled (c : Cluster) (s : PeerSync) (pids : List Nat) (start sh : Shared) : Prop where
  pushed : ∀ pid ∈ pids, s.view.isReplica pid s.peer = true → ∀ k ∈ c.heldBy sh s.self pid,
    k.pid = pid → (k.ts.wallMs : Int) ≤ s.cutoffMs →
      Retained Key.newerThan (c.policy s.peer).versions (c.heldBy sh s.peer pid) k
  pulled : ∀ pid ∈ pids, s.view.isReplica pid s.self = true → ∀ k ∈ c.heldBy sh s.peer pid,
    k.pid = pid → (k.ts.wallMs : Int) ≤ s.cutoffMs →
      Retained Key.newerThan (c.policy s.self).versions (c.heldBy sh s.self pid) k
  kept : ∀ node, s.Ends node → ∀ group,
    (start.storage node group).held ⊆ (sh.storage node group).held
  oneWay : ∀ node, s.Ends node → ∀ group, ∀ k ∈ (sh.storage node group).held,
    s.view.isReplica k.pid node = false → k ∈ (start.storage node group).held

def originKey : Key := ⟨0, ⟨[], []⟩, ⟨0, 0, "", HLCTimestamp.size_empty⟩⟩

theorem originKey_encodable : originKey.Encodable := by decide

section Reconciled

variable [Blake2b] {c : Cluster} {s : PeerSync} {pids : List Nat} {w : World}

theorem syncRoots_reconciles (hdistinct : s.self ≠ s.peer)
    (hstored : ∀ node, s.Ends node → ∀ group, GoodGroup c group (w.shared.storage node group))
    (hquiet : Quiet c.env s) (hfresh : w.shared.progress s.peer s.ref = {})
    (hrun : (s.syncRoots c pids w).1 = .ok ()) (hdist : Distinguished (s.syncRoots c pids w).2) :
    Reconciled c s pids w.shared (s.syncRoots c pids w).2.shared := by
  have hsession (k : Key) (src dst : String) (hk : k.Encodable) (hf : s.Faces ⟨k, src, dst⟩) :
      QuietSession c s ⟨k, src, dst⟩ := ⟨hdistinct, hquiet, hf, hk⟩
  obtain ⟨w', hw'⟩ : ∃ w', w' = (s.syncRoots c pids w).2 := ⟨_, rfl⟩
  have hcopied : Copied c s w.shared w'.shared := by
    rw [hw']
    exact ((hsession originKey s.self s.peer originKey_encodable (.inl ⟨rfl, rfl⟩)).outcome
      hstored hfresh hrun hdist).1
  have hsettled (k : Key) (src dst : String) (hf : s.Faces ⟨k, src, dst⟩) (hp : k.pid ∈ pids)
      (hrep : s.view.isReplica k.pid dst = true) (hm : k ∈ c.heldBy w'.shared src k.pid)
      (htime : (k.ts.wallMs : Int) ≤ s.cutoffMs) : c.Kept ⟨k, src, dst⟩ w'.shared := by
    have hgood := hcopied.good src (ends_of_faces hf).1 (c.groupFor k.pid)
    have hk : k.Encodable := hgood.toSound.encodable_of_held hm
    rw [hw'] at hm ⊢
    exact ((hsession k src dst hk hf).outcome hstored hfresh hrun hdist).2 hp hrep htime hm
  rw [← hw']
  refine ⟨?_, ?_, hcopied.grows, ?_⟩
  · rintro pid hp hrep k hm rfl htime
    exact hsettled k s.self s.peer (.inl ⟨rfl, rfl⟩) hp hrep hm htime
  · rintro pid hp hrep k hm rfl htime
    exact hsettled k s.peer s.self (.inr ⟨rfl, rfl⟩) hp hrep hm htime
  · intro node hn group k hm hrep
    rcases hcopied.flows node hn group k hm with hold | hreplica
    · exact hold
    · rw [hrep] at hreplica
      cases hreplica

end Reconciled

namespace Sample

def view (replicas : List String) : ReplicaView :=
  { nodeId := "a"
    serial := "ring"
    replicas := [replicas, replicas]
    shared := []
    sources := []
    owns := false }

def shared (replicas : List String) (stored : String → List Record) : Shared :=
  { nodes := fun n =>
      { groups := fun g => if g = 0 then store (stored n) else .empty
        tracker := ⟨some (view replicas), 0⟩
        running := true }
    registry := fun _ => some .ready
    alive := fun _ => true
    deferred := fun _ => false
    progress := fun _ _ => {}
    refs := []
    nextRef := 0
    handed := []
    backlog := false }

def world (sh : Shared) : World := ⟨sh, 0, {}, [], []⟩

def limits : SessionLimits where
  keysPerRequest := 16
  maxBatchBytes := 4096
  maxRepairs := 16
  maxKeysScanned := 64
  keysPositive := by decide
  bytesPositive := by decide
  repairsPositive := by decide
  scanPositive := by decide

def still (nowMs : Int) : Env :=
  { step := fun _ sh => sh
    fault := fun _ => none
    commit := fun _ => .ok ()
    nowMs := fun _ => nowMs }

def cluster (env : Env) : Cluster :=
  { partitioner := ⟨1, 0, Nat.one_pos⟩
    policy := fun _ => ⟨1, Nat.one_pos⟩
    env := env
    fuel := 16 }

def session (replicas : List String) (cutoffMs : Int) : PeerSync :=
  { self := "a"
    peer := "b"
    view := view replicas
    epoch := 0
    limits := limits
    cutoffMs := cutoffMs
    ref := 0 }

theorem shared_held (replicas : List String) {stored : String → List Record} (allowed : Key → Prop)
    (h : ∀ node, ∀ r ∈ stored node, CleanRecord r ∧ allowed r.key) (node : String) (group : Nat) :
    Clean ((shared replicas stored).storage node group) ∧
      ∀ k ∈ ((shared replicas stored).storage node group).held, allowed k ∧ group = 0 := by
  change Clean (if group = 0 then store (stored node) else .empty) ∧
    ∀ k ∈ (if group = 0 then store (stored node) else GroupStorage.empty).held, _
  split
  · rename_i hg
    exact ⟨(store_clean (h node)).1, fun k hk => ⟨(store_clean (h node)).2 k hk, hg⟩⟩
  · exact ⟨clean_empty, nofun⟩

def onlyAt (node : String) (records : List Record) : String → List Record :=
  fun n => if n = node then records else []

theorem onlyAt_version {wallMs : Nat} (h : wallMs < 256 ^ 8) (owner node : String) :
    ∀ r ∈ onlyAt owner [version wallMs] node, CleanRecord r ∧ r.key = (version wallMs).key := by
  unfold onlyAt
  split
  · intro r hr
    rw [List.mem_singleton.mp hr]
    exact ⟨version_clean h, rfl⟩
  · nofun

def only (replicas : List String) (owner : String) (wallMs : Nat) : World :=
  world (shared replicas (onlyAt owner [version wallMs]))

theorem only_good (replicas : List String) (owner : String) {wallMs : Nat} (h : wallMs < 256 ^ 8)
    (env : Env) (node : String) (group : Nat) :
    GoodGroup (cluster env) group ((only replicas owner wallMs).shared.storage node group) := by
  obtain ⟨hclean, hheld⟩ := shared_held replicas (fun k => k = (version wallMs).key)
    (onlyAt_version h owner) node group
  refine ⟨hclean, ?_⟩
  intro q hq
  obtain ⟨rfl, rfl⟩ := hheld q hq
  exact Nat.zero_shiftRight _

theorem handoff_reconciles : Reconciled (cluster (still 9)) (session ["b"] 9) [0] (only ["b"] "a" 5).shared
      ((session ["b"] 9).syncRoots (cluster (still 9)) [0] (only ["b"] "a" 5)).2.shared ∧
    (version 5).key ∈ (((session ["b"] 9).syncRoots (cluster (still 9)) [0]
      (only ["b"] "a" 5)).2.shared.storage "b" 0).held := by
  have hrun : ((session ["b"] 9).syncRoots (cluster (still 9)) [0] (only ["b"] "a" 5)).1 = .ok () := by
    decide +kernel
  have hdist : Distinguished
      ((session ["b"] 9).syncRoots (cluster (still 9)) [0] (only ["b"] "a" 5)).2 := by
    decide +kernel
  exact ⟨syncRoots_reconciles (by decide) (fun node _ group => only_good _ _ (by decide) _ node group)
    ⟨fun _ _ _ _ _ => rfl, fun _ _ => rfl⟩ rfl hrun hdist, by decide +kernel⟩

end Sample

end Tourillon
