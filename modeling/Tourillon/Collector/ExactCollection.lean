import Tourillon.Collector.CollectionSpec

namespace Tourillon

open Endian TopVersions Prog Protocol GarbageCollector Yields List

def remaining (g : GroupStorage) (after : Option Bytes) : Nat :=
  (g.held.filter fun k => ∀ b ∈ after, b < k.encode .tags).card

theorem remaining_lt {g : GroupStorage} {after : Option Bytes} {last : Key} (hin : last ∈ g.held)
    (hafter : ∀ b ∈ after, b < last.encode .tags) : remaining g (some (last.encode .tags)) < remaining g after := by
  refine Finset.card_lt_card (Finset.ssubset_iff_of_subset ?_ |>.mpr ⟨last, ?_, ?_⟩)
  · intro k hk
    obtain ⟨hheld, hlt⟩ := Finset.mem_filter.mp hk
    exact Finset.mem_filter.mpr ⟨hheld, fun b hb => (hafter b hb).trans (hlt _ rfl)⟩
  · exact Finset.mem_filter.mpr ⟨hin, hafter⟩
  · intro hmem
    exact lt_irrefl _ ((Finset.mem_filter.mp hmem).2 _ rfl)

section Exact

variable [Blake2b] {c : GarbageCollector} {w₀ : GcState} {address : PartitionAddress} {w : GcState}

theorem hotStep_idle (h : w.hot = []) : c.hotStep w = (.ok (), w) := by
  have hget : (Prog.get : Gc GcState) w = (.ok w, w) := rfl
  rw [hotStep, bind_ok hget, h]
  rfl

theorem hotStep_pops {rest : List PartitionAddress} (h : w.hot = address :: rest) :
    c.hotStep w = (.ok (), (c.collectAddress address { w with hot := rest }).2) := by
  have hget : (Prog.get : Gc GcState) w = (.ok w, w) := rfl
  rw [hotStep, bind_ok hget, h]
  rfl

theorem hotStep_returns (w : GcState) : ∃ w', c.hotStep w = (.ok (), w') := by
  cases hhot : w.hot with
  | nil => exact ⟨w, hotStep_idle hhot⟩
  | cons address rest => exact ⟨_, hotStep_pops hhot⟩

section

variable (hs : ∀ group, Stamped (w₀.groups group).held)

include hs

theorem yields_hotStep : Yields (Collecting c w₀) c.hotStep fun _ => True := by
  intro w hw
  obtain ⟨w', hrun⟩ := hotStep_returns (c := c) w
  have hreach := (spec_hotStep hs w hw trivial).1
  rw [hrun] at hreach
  exact ⟨(), w', hrun, hreach.inv hw, trivial⟩

theorem yields_scanPage (hcommit : ∀ n, c.commit n = .ok ()) (group : Nat) (after : Option Bytes) :
    Yields (Collecting c w₀) (c.scanPage group after) fun r => r.elim
      (fun after' => True ∧ remaining (w₀.groups group) after' < remaining (w₀.groups group) after)
      fun _ => True := by
  refine bind get ?_
  intro v hv
  rw [hv.real]
  have hok (g : GroupStorage) (hg : Thinned c.retention (w₀.groups group) g) :
      ∃ a s s', c.collectPage after false (.start g) = .ok (a, s) ∧ s.flush = .ok s' := by
    obtain ⟨out, s, s', hb, hf, _⟩ := collectPage_ok (hs group) after hg
    exact ⟨out, s, s', hb, hf⟩
  refine bind (yields_session hcommit (reports_page (hs group) after) hok) ?_
  rintro ⟨keys, count, size⟩ ⟨g, g', hg, ks, hks, hkeys, hcollected⟩
  dsimp only at hkeys
  refine bind (modify fun w hw => ⟨hw.real, hw.thinned, hw.settled⟩) fun _ _ => ?_
  by_cases hshort : keys.length < c.batchSize
  · rw [if_pos hshort]
    exact ret trivial
  · rw [if_neg hshort]
    have hne : keys ≠ [] := by
      rintro rfl
      have hpositive := c.batched
      simp only [length_nil] at hshort
      omega
    obtain ⟨last, hlast⟩ : ∃ last, keys.getLast? = some last := ⟨_, getLast?_eq_some_getLast hne⟩
    have hmem := mem_of_getLast? hlast
    rw [hkeys] at hmem
    obtain ⟨hheld, hafter⟩ := (hks.mem hg.clean.toSound last).mp (mem_of_mem_take hmem)
    have henc := hg.clean.toSound.encodable_of_held hheld
    have hcursor : cursorAfter keys = .ok (last.encode .tags) := by
      rw [cursorAfter, hlast]
      dsimp only
      rw [Key.toBytes_tags_eq_ok.mpr ⟨henc, rfl⟩]
      rfl
    refine bind (M := fun b => b = last.encode .tags) (lift ⟨_, hcursor, rfl⟩) ?_
    rintro _ rfl
    refine bind (yields_hotStep hs) fun _ _ => ?_
    exact ret ⟨trivial, remaining_lt (hg.subset hheld) hafter⟩

theorem yields_scan (hcommit : ∀ n, c.commit n = .ok ())
    (hfuel : ∀ group < c.partitioner.totalGroups, (w₀.groups group).held.card < c.fuel) :
    Yields (Collecting c w₀) c.scan fun _ => True := by
  refine each ?_
  intro group hgroup
  refine iterate (J := fun _ => True) (remaining (w₀.groups group))
    (fun after _ => yields_scanPage hs hcommit group after) trivial ?_
  refine (Finset.card_le_card (Finset.filter_subset _ _)).trans_lt ?_
  exact hfuel group (mem_range.mp hgroup)

end

theorem hotSteps_idle (h : w.hot = []) (n : Nat) : c.hotSteps n w = (.ok (), w) := by
  induction n with
  | zero => rfl
  | succ n ih => rw [hotSteps, bind_ok (hotStep_idle h), ih]

def Exhausted (c : GarbageCollector) (address : PartitionAddress) (w : GcState) : Prop :=
  w.hot = [] ∧ ∃ e ∈ w.collections, e.address = address ∧ e.count < c.batchSize

theorem Collected.fewer {p : RetentionPolicy} {g g' : GroupStorage} {ks : List Key}
    (hks : Logged g address ks) {limit count : Nat} (h : Collected p (ks.take limit) g g' count) :
    (g'.versionsOf address).card + count = (g.versionsOf address).card := by
  have hsub : (ks.take limit).toFinset.filter (Covered Key.newerThan p.versions g.held) ⊆
      g.versionsOf address := by
    intro k hk
    exact (hks.mem k).mp (mem_of_mem_take (mem_toFinset.mp (Finset.mem_filter.mp hk).1))
  have hset : g'.versionsOf address = g.versionsOf address \
      (ks.take limit).toFinset.filter (Covered Key.newerThan p.versions g.held) := by
    ext k
    rw [GroupStorage.mem_versionsOf, h.held, Finset.mem_sdiff, Finset.mem_sdiff, GroupStorage.mem_versionsOf]
    tauto
  rw [hset, h.count, Finset.card_sdiff_add_card_eq_card hsub]

section

variable (hs : ∀ group, Stamped (w₀.groups group).held) (hcommit : ∀ n, c.commit n = .ok ())
  (harrivals : ∀ n, c.arrivals n = []) (hqueue : 1 ≤ c.hotqueueSize) (ha : address.Encodable)

include hs hcommit harrivals hqueue ha

theorem hotStep_alone (hw : Collecting c w₀ w) (hhot : w.hot = [address]) :
    ∃ w', c.hotStep w = (.ok (), w') ∧ (Exhausted c address w' ∨ w'.hot = [address] ∧
      ((w'.groups (c.partitioner.groupFor address.pid)).versionsOf address).card <
        ((w.groups (c.partitioner.groupFor address.pid)).versionsOf address).card) := by
  obtain ⟨⟨records, count, size⟩, s, s', hb, hf, ks, hks, hkeys, hcollected⟩ :=
    collectOldest_ok (hs (c.partitioner.groupFor address.pid)) ha (hw.thinned _)
  dsimp only at hkeys hcollected
  rw [hkeys] at hcollected
  have hsession : c.session (c.partitioner.groupFor address.pid) false (c.collectOldest address)
      { w with hot := [] } = (.ok (records, count, size), c.settle
        (GcState.withGroup { w with hot := [] } (c.partitioner.groupFor address.pid) s'.storage)) := by
    refine c.session_write _ _ { w with hot := [] } (r := .ok (records, count, size)) ?_
    rw [hcommit]
    exact session_ok hb hf
  refine ⟨_, hotStep_pops hhot, ?_⟩
  rw [collectAddress, bind_ok hsession]
  have hcard := Collected.fewer hks hcollected
  have hpositive := c.batched
  by_cases hfull : count = c.batchSize
  · right
    simp only [settle, harrivals, foldl_nil]
    have hsubmit (v : GcState) (hv : v.hot = []) : (c.submit v address).hot = [address] := by
      rw [submit, hv, if_neg (by simp), if_neg (by simp; omega)]
      rfl
    have hgroups (v : GcState) : (c.submit v address).groups = v.groups := (c.submit_same v address).groups
    have hmodify (f : GcState → GcState) (v : GcState) : (Prog.modify f : Gc Unit) v = (.ok (), f v) := rfl
    rw [bind_ok (hmodify _ _), whenever, if_pos hfull, hmodify]
    refine ⟨hsubmit _ rfl, ?_⟩
    dsimp only
    rw [hgroups]
    show ((Function.update w.groups _ s'.storage _).versionsOf address).card < _
    rw [Function.update_self]
    omega
  · left
    simp only [settle, harrivals, foldl_nil]
    have hmodify (f : GcState → GcState) (v : GcState) : (Prog.modify f : Gc Unit) v = (.ok (), f v) := rfl
    rw [bind_ok (hmodify _ _), whenever, if_neg hfull]
    refine ⟨rfl, ⟨address, records.length, count, size⟩, mem_append_right _ (by simp), rfl, ?_⟩
    have hle : count ≤ c.batchSize := by
      rw [hcollected.count]
      refine (Finset.card_filter_le _ _).trans ((toFinset_card_le _).trans ?_)
      exact length_take_le ..
    exact lt_of_le_of_ne hle hfull

theorem hotSteps_exhaust {n : Nat} (hw : Collecting c w₀ w) (hhot : w.hot = [address])
    (hn : ((w.groups (c.partitioner.groupFor address.pid)).versionsOf address).card < n) :
    ∃ w', c.hotSteps n w = (.ok (), w') ∧ Exhausted c address w' := by
  induction n generalizing w with
  | zero => exact absurd hn (Nat.not_lt_zero _)
  | succ n ih =>
    obtain ⟨w', hstep, hdone | ⟨hhot', hless⟩⟩ := hotStep_alone hs hcommit harrivals hqueue ha hw hhot
    · refine ⟨w', ?_, hdone⟩
      rw [hotSteps, bind_ok hstep, hotSteps_idle hdone.1]
    · have hreach := (spec_hotStep hs w hw trivial).1
      rw [hstep] at hreach
      obtain ⟨w'', hrest, hdone⟩ := ih (hreach.inv hw) hhot' (hless.trans_le (Nat.le_of_lt_succ hn))
      refine ⟨w'', ?_, hdone⟩
      rw [hotSteps, bind_ok hstep, hrest]

end

theorem spec_hotSteps (hs : ∀ group, Stamped (w₀.groups group).held) (n : Nat) :
    (collecting c w₀).Spec (fun _ => True) (c.hotSteps n) fun _ _ => True := by
  induction n with
  | zero => exact Spec.ret fun _ _ _ => trivial
  | succ n ih => exact Spec.bind (spec_hotStep hs) fun _ => ih

theorem collecting_start (hclean : ∀ group, Clean (w.groups group)) (hreal : w.status.dryRun = false)
    (hfresh : w.collections = []) : Collecting c w w where
  real := hreal
  thinned group := Thinned.refl (hclean group)
  settled e he := by
    rw [hfresh] at he
    cases he

theorem collection_is_exact (c : GarbageCollector) (w : GcState)
    (hclean : ∀ group, Clean (w.groups group)) (hs : ∀ group, Stamped (w.groups group).held)
    (hreal : w.status.dryRun = false) (hfresh : w.collections = []) :
    (∀ w', c.scan w = (.ok (), w') → ∀ group < c.partitioner.totalGroups, Clean (w'.groups group) ∧
        ∀ address, KeepsGreatest c.retention.versions (w.groups group) (w'.groups group) address) ∧
    ((∀ n, c.commit n = .ok ()) → (∀ group < c.partitioner.totalGroups, (w.groups group).held.card < c.fuel) →
        ∃ w', c.scan w = (.ok (), w')) ∧ (∀ n, (∀ group, Clean ((c.hotSteps n w).2.groups group)) ∧
      ∀ e ∈ (c.hotSteps n w).2.collections, e.count < c.batchSize →
        KeepsGreatest c.retention.versions (w.groups (c.partitioner.groupFor e.address.pid))
          ((c.hotSteps n w).2.groups (c.partitioner.groupFor e.address.pid)) e.address) ∧
    (∀ address, address.Encodable → w.hot = [address] → 1 ≤ c.hotqueueSize →
      (∀ n, c.commit n = .ok ()) → (∀ n, c.arrivals n = []) →
        ∀ n, ((w.groups (c.partitioner.groupFor address.pid)).versionsOf address).card < n →
          ∃ w', c.hotSteps n w = (.ok (), w') ∧ Exhausted c address w') := by
  have hstart : Collecting c w w := collecting_start hclean hreal hfresh
  refine ⟨?_, ?_, ?_, ?_⟩
  · intro w' hrun group hgroup
    obtain ⟨hreach, hwhole⟩ := spec_scan hs w hstart trivial
    rw [hrun] at hreach hwhole
    have hend := (hreach.inv hstart).thinned group
    refine ⟨hend.clean, fun address => hend.keepsGreatest (hclean group) (hs group) ?_⟩
    intro k hk _
    exact hwhole () rfl group hgroup k hk
  · intro hcommit hfuel
    obtain ⟨_, w', hrun, _⟩ := yields_scan hs hcommit hfuel w hstart
    exact ⟨w', hrun⟩
  · intro n
    have hend := (spec_hotSteps hs n w hstart trivial).1.inv hstart
    refine ⟨fun group => (hend.thinned group).clean, ?_⟩
    intro e he hfew
    exact (hend.thinned _).keepsGreatest (hclean _) (hs _) (hend.settled e he hfew)
  · intro address ha hhot hqueue hcommit harrivals n hn
    exact hotSteps_exhaust hs hcommit harrivals hqueue ha hstart hhot hn

end Exact

namespace Sample

def collector : GarbageCollector where
  partitioner := ⟨1, 0, Nat.one_pos⟩
  retention := ⟨1, Nat.one_pos⟩
  batchSize := 1
  batched := Nat.one_pos
  hotqueueSize := 4
  commit _ := .ok ()
  arrivals _ := []
  fuel := 8

def collectable (dryRun : Bool) : GcState where
  groups group := if group = 0 then store [version 5, version 7] else .empty
  hot := []
  overflowed := 0
  alive := true
  pending := false
  status := { state := .running, dryRun }
  sessions := 0
  collections := []

theorem collectable_sound (dryRun : Bool) (group : Nat) :
    Clean ((collectable dryRun).groups group) ∧ Stamped ((collectable dryRun).groups group).held := by
  have hrecords : ∀ r ∈ [version 5, version 7],
      CleanRecord r ∧ (r.key = (version 5).key ∨ r.key = (version 7).key) := by
    intro r hr
    rcases mem_cons.mp hr with rfl | hr
    · exact ⟨version_clean (by decide), .inl rfl⟩
    · obtain rfl := mem_singleton.mp hr
      exact ⟨version_clean (by decide), .inr rfl⟩
  have hstore : Clean (store [version 5, version 7]) ∧ ∀ k ∈ (store [version 5, version 7]).held,
      k = (version 5).key ∨ k = (version 7).key := store_clean hrecords
  by_cases hgroup : group = 0
  · subst hgroup
    refine ⟨hstore.1, ?_, ?_⟩
    · intro k hk
      rcases hstore.2 k hk with rfl | rfl <;> decide
    · intro k hk k' hk' _ hwall _
      rcases hstore.2 k hk with rfl | rfl <;> rcases hstore.2 k' hk' with rfl | rfl
      · rfl
      · exact absurd hwall (by decide)
      · exact absurd hwall (by decide)
      · rfl
  · have hempty : (collectable dryRun).groups group = .empty := if_neg hgroup
    rw [hempty]
    exact ⟨clean_empty, nofun, nofun⟩

theorem scan_keeps_greatest : ∃ w', collector.scan (collectable false) = (.ok (), w') ∧
    ∀ address, KeepsGreatest 1 (store [version 5, version 7]) (w'.groups 0) address := by
  have hexact := collection_is_exact collector (collectable false)
    (fun group => (collectable_sound false group).1) (fun group => (collectable_sound false group).2)
    rfl rfl
  obtain ⟨w', hrun⟩ := hexact.2.1 (fun _ => rfl) (by
    intro group hgroup
    obtain rfl : group = 0 := Nat.lt_one_iff.mp hgroup
    decide +kernel)
  exact ⟨w', hrun, (hexact.1 w' hrun 0 (by decide)).2⟩

end Sample

end Tourillon
