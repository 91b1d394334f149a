import Tourillon.Collector.GarbageCollector
import Tourillon.Collector.Thinning
import Tourillon.Library.Protocol
import Tourillon.Library.Termination

namespace Tourillon

open Endian Exceptional Prog Protocol GarbageCollector List

namespace GarbageCollector

structure SameStorage (w w' : GcState) : Prop where
  groups : w'.groups = w.groups
  status : w'.status = w.status
  collections : w'.collections = w.collections

theorem submit_same (c : GarbageCollector) (w : GcState) (address : PartitionAddress) :
    SameStorage w (c.submit w address) := by
  unfold submit
  split
  · exact ⟨rfl, rfl, rfl⟩
  · split
    · exact ⟨rfl, rfl, rfl⟩
    · exact ⟨rfl, rfl, rfl⟩

theorem settle_same (c : GarbageCollector) (w : GcState) : SameStorage w (c.settle w) := by
  have hfold (addresses : List PartitionAddress) (w : GcState) :
      SameStorage w (addresses.foldl c.submit w) := by
    induction addresses generalizing w with
    | nil => exact ⟨rfl, rfl, rfl⟩
    | cons address addresses ih =>
      have hstep := c.submit_same w address
      have hrest := ih (c.submit w address)
      exact ⟨hrest.groups.trans hstep.groups, hrest.status.trans hstep.status,
        hrest.collections.trans hstep.collections⟩
  have hall := hfold (c.arrivals w.sessions) w
  exact ⟨hall.groups, hall.status, hall.collections⟩

end GarbageCollector

section Collecting

variable [Blake2b] {c : GarbageCollector} {w₀ : GcState} {group : Nat} {g : GroupStorage} {w w' : GcState}
  {α : Type} {body : GroupSession → Except PyError (α × GroupSession)}
  {post : α → GroupStorage → GroupStorage → Prop}

structure Collecting (c : GarbageCollector) (w₀ w : GcState) : Prop where
  real : w.status.dryRun = false
  thinned : ∀ group, Thinned c.retention (w₀.groups group) (w.groups group)
  settled : ∀ e ∈ w.collections, e.count < c.batchSize →
    Trimmed c.retention (w₀.groups (c.partitioner.groupFor e.address.pid))
      (w.groups (c.partitioner.groupFor e.address.pid)) e.address

theorem Collecting.same (h : Collecting c w₀ w) (hs : GarbageCollector.SameStorage w w') : Collecting c w₀ w' where
  real := by rw [hs.status, h.real]
  thinned := by
    rw [hs.groups]
    exact h.thinned
  settled := by
    rw [hs.groups, hs.collections]
    exact h.settled

theorem Collecting.shrink (h : Collecting c w₀ w) (hg : Thinned c.retention (w₀.groups group) g)
    (hsub : g.held ⊆ (w.groups group).held) : Collecting c w₀ (w.withGroup group g) ∧
      ∀ i, (Function.update w.groups group g i).held ⊆ (w.groups i).held := by
  have hall (i : Nat) : (Function.update w.groups group g i).held ⊆ (w.groups i).held := by
    by_cases hi : i = group
    · subst hi
      rw [Function.update_self]
      exact hsub
    · rw [Function.update_of_ne hi]
  refine ⟨⟨h.real, ?_, ?_⟩, hall⟩
  · intro i
    show Thinned c.retention (w₀.groups i) (Function.update w.groups group g i)
    by_cases hi : i = group
    · subst hi
      rw [Function.update_self]
      exact hg
    · rw [Function.update_of_ne hi]
      exact h.thinned i
  · intro e he hfew
    exact (h.settled e he hfew).mono (hall _)

def collecting (c : GarbageCollector) (w₀ : GcState) : Protocol GcState where
  inv := Collecting c w₀
  move w w' := Collecting c w₀ w' ∧ ∀ group, (w'.groups group).held ⊆ (w.groups group).held
  keeps _ h := h.1

theorem move_same (h : Collecting c w₀ w) (hs : GarbageCollector.SameStorage w w') : (collecting c w₀).move w w' :=
  ⟨h.same hs, fun group => by rw [hs.groups]⟩

theorem stable_through (group : Nat) (after : Option Bytes) : (collecting c w₀).Stable fun w =>
    TrimmedThrough c.retention (w₀.groups group) (w.groups group) after :=
  fun _ _ _ hm h => h.mono (hm.2 group)

theorem stable_whole (group : Nat) : (collecting c w₀).Stable fun w =>
    TrimmedWhole c.retention (w₀.groups group) (w.groups group) :=
  fun _ _ _ hm h => h.mono (hm.2 group)

structure Reports {α : Type} (c : GarbageCollector) (g₀ : GroupStorage)
    (body : GroupSession → Except PyError (α × GroupSession))
    (post : α → GroupStorage → GroupStorage → Prop) : Prop where
  sound : ∀ g a s s', Thinned c.retention g₀ g → body (.start g) = .ok (a, s) → s.flush = .ok s' →
    Thinned c.retention g₀ s'.storage ∧ s'.storage.held ⊆ g.held ∧ post a g s'.storage

theorem spec_session (h : Reports c (w₀.groups group) body post) (A : GcState → Prop) :
    (collecting c w₀).Spec A (c.session group false body) fun a w' =>
      ∃ w, Collecting c w₀ w ∧ A w ∧ post a (w.groups group) (w'.groups group) := by
  refine Spec.act ?_
  intro w hw hA
  obtain ⟨r, g, hrun⟩ : ∃ r g, GroupSessionManager.session body (c.commit w.sessions)
      (w.groups group) = (r, g) := ⟨_, _, rfl⟩
  rw [c.session_write group body w hrun]
  rcases session_cases hrun with ⟨e, rfl, rfl⟩ | ⟨a, s, s', rfl, hb, hf, rfl⟩
  · rw [GcState.withGroup, Function.update_eq_self]
    refine ⟨.inr (move_same hw (c.settle_same w)), ?_⟩
    intro a ha
    cases ha
  · obtain ⟨hthin, hsub, hpost⟩ := h.sound _ a s s' (hw.thinned group) hb hf
    obtain ⟨hnext, hshrinks⟩ := hw.shrink hthin hsub
    have hsame := c.settle_same (w.withGroup group s'.storage)
    refine ⟨.inr ⟨hnext.same hsame, ?_⟩, ?_⟩
    · intro i
      rw [hsame.groups]
      exact hshrinks i
    · intro b hb'
      obtain rfl : a = b := Except.ok.inj hb'
      refine ⟨w, hw, hA, ?_⟩
      rw [hsame.groups]
      show post a (w.groups group) (Function.update w.groups group s'.storage group)
      rw [Function.update_self]
      exact hpost

theorem yields_session (hcommit : ∀ n, c.commit n = .ok ()) (h : Reports c (w₀.groups group) body post)
    (hok : ∀ g, Thinned c.retention (w₀.groups group) g →
      ∃ a s s', body (.start g) = .ok (a, s) ∧ s.flush = .ok s') :
    Yields (Collecting c w₀) (c.session group false body) fun a =>
      ∃ g g', Thinned c.retention (w₀.groups group) g ∧ post a g g' := by
  intro w hw
  obtain ⟨a, s, s', hb, hf⟩ := hok _ (hw.thinned group)
  obtain ⟨hthin, hsub, hpost⟩ := h.sound _ a s s' (hw.thinned group) hb hf
  refine ⟨a, c.settle (w.withGroup group s'.storage), ?_, ?_, ?_⟩
  · refine c.session_write group body w (r := .ok a) ?_
    rw [hcommit]
    exact session_ok hb hf
  · exact (hw.shrink hthin hsub).1.same (c.settle_same _)
  · exact ⟨_, _, hw.thinned group, hpost⟩

def PageReport (c : GarbageCollector) (after : Option Bytes) (out : List Key × Nat × Nat)
    (g g' : GroupStorage) : Prop :=
  ∃ ks, TagPage g after ks ∧ out.1 = ks.take c.batchSize ∧ Collected c.retention out.1 g g' out.2.1

theorem collectPage_ok (hs : Stamped (w₀.groups group).held) (after : Option Bytes)
    (hg : Thinned c.retention (w₀.groups group) g) :
    ∃ out s s', c.collectPage after false (.start g) = .ok (out, s) ∧ s.flush = .ok s' ∧
      PageReport c after out g s'.storage := by
  obtain ⟨ks, hpage, hks⟩ := logPage_ok hg.clean.keyed after c.batchSize
  have hheld (k : Key) (hk : k ∈ ks.take c.batchSize) : k ∈ g.held :=
    ((hks.mem hg.clean.toSound k).mp (mem_of_mem_take hk)).1
  obtain ⟨totals, s, s', hcollect, hflush, hcollected⟩ :=
    collect_exact c.retention hg.clean (hs.ordered hg.subset) hheld
  refine ⟨(ks.take c.batchSize, totals), s, s', ?_, hflush, ks, hks, rfl, hcollected⟩
  have hstart : (GroupSession.start g).storage.logPage after c.batchSize =
      .ok (ks.take c.batchSize) := hpage
  simp only [collectPage, hstart, hcollect, bind, Except.bind, pure, Except.pure]

def OldestReport (c : GarbageCollector) (address : PartitionAddress) (out : List Key × Nat × Nat)
    (g g' : GroupStorage) : Prop :=
  ∃ ks, Logged g address ks ∧ out.1 = ks.take c.batchSize ∧ Collected c.retention out.1 g g' out.2.1

section

variable (hs : Stamped (w₀.groups group).held)

include hs

theorem collectOldest_ok {address : PartitionAddress} (ha : address.Encodable)
    (hg : Thinned c.retention (w₀.groups group) g) :
    ∃ out s s', c.collectOldest address (.start g) = .ok (out, s) ∧ s.flush = .ok s' ∧
      OldestReport c address out g s'.storage := by
  obtain ⟨ks, hpage, hks⟩ := oldestKeys_ok hg.clean.toSound ha c.batchSize
  have hheld (k : Key) (hk : k ∈ ks.take c.batchSize) : k ∈ g.held :=
    (GroupStorage.mem_versionsOf.mp ((hks.mem k).mp (mem_of_mem_take hk))).1
  obtain ⟨totals, s, s', hcollect, hflush, hcollected⟩ :=
    collect_exact c.retention hg.clean (hs.ordered hg.subset) hheld
  refine ⟨(ks.take c.batchSize, totals), s, s', ?_, hflush, ks, hks, rfl, hcollected⟩
  have hstart : (GroupSession.start g).storage.oldestKeys address c.batchSize =
      .ok (ks.take c.batchSize) := hpage
  simp only [collectOldest, hstart, hcollect, bind, Except.bind, pure, Except.pure]

theorem reports_page (after : Option Bytes) :
    Reports c (w₀.groups group) (c.collectPage after false) (PageReport c after) := by
  constructor
  intro g out s s' hg hb hf
  obtain ⟨out', t, t', hb', hf', ks, hks, hkeys, hcollected⟩ := collectPage_ok hs after hg
  obtain ⟨rfl, rfl⟩ := Prod.mk.inj (Except.ok.inj (hb'.symm.trans hb))
  obtain rfl : t' = s' := Except.ok.inj (hf'.symm.trans hf)
  obtain ⟨hthin, hsub⟩ := hg.collected hcollected
  exact ⟨hthin, hsub, ks, hks, hkeys, hcollected⟩

theorem reports_oldest (address : PartitionAddress) :
    Reports c (w₀.groups group) (c.collectOldest address) (OldestReport c address) := by
  constructor
  intro g out s s' hg hb hf
  have ha : address.Encodable := by
    simp only [collectOldest, GroupStorage.oldestKeys, bind_eq_ok, PartitionAddress.toBytes_eq_ok] at hb
    obtain ⟨_, ⟨_, ⟨ha, _⟩, _⟩, _⟩ := hb
    exact ha
  obtain ⟨out', t, t', hb', hf', ks, hks, hkeys, hcollected⟩ := collectOldest_ok hs ha hg
  obtain ⟨rfl, rfl⟩ := Prod.mk.inj (Except.ok.inj (hb'.symm.trans hb))
  obtain rfl : t' = s' := Except.ok.inj (hf'.symm.trans hf)
  obtain ⟨hthin, hsub⟩ := hg.collected hcollected
  exact ⟨hthin, hsub, ks, hks, hkeys, hcollected⟩

end

variable (hs : ∀ group, Stamped (w₀.groups group).held)

include hs

theorem spec_collectAddress (address : PartitionAddress) :
    (collecting c w₀).Spec (fun _ => True) (c.collectAddress address) fun _ _ => True := by
  refine Spec.bind (spec_session (reports_oldest (hs _) address) _) ?_
  rintro ⟨records, count, size⟩
  refine Spec.bind (M := fun _ _ => True) (Spec.modify ?_) fun _ => ?_
  · rintro w' hw' ⟨w, hw, _, ks, hks, hkeys, hcollected⟩
    dsimp only at hkeys hcollected
    rw [hkeys] at hcollected
    refine ⟨.inr ⟨⟨hw'.real, hw'.thinned, ?_⟩, fun _ => Finset.Subset.refl _⟩, trivial⟩
    intro e he hfew
    rcases mem_append.mp he with he | he
    · exact hw'.settled e he hfew
    · obtain rfl := mem_singleton.mp he
      exact (hw.thinned _).oldest (hs _) hks hcollected hfew
  · refine Spec.whenever (fun _ => Spec.modify ?_) fun _ _ _ _ => trivial
    intro w hw _
    exact ⟨.inr (move_same hw (c.submit_same w address)), trivial⟩

theorem spec_hotStep : (collecting c w₀).Spec (fun _ => True) c.hotStep fun _ _ => True := by
  refine Spec.bind (M := fun _ _ => True) (Spec.get fun _ _ _ => trivial) ?_
  intro w
  cases w.hot with
  | nil => exact Spec.ret fun _ _ _ => trivial
  | cons address rest =>
    refine Spec.bind (M := fun _ _ => True) (Spec.modify ?_) fun _ => ?_
    · intro w hw _
      exact ⟨.inr (move_same hw ⟨rfl, rfl, rfl⟩), trivial⟩
    · refine Spec.bind (M := fun _ _ => True) ?_ fun _ => Spec.ret fun _ _ _ => trivial
      exact (spec_collectAddress hs address).attempt.post fun _ _ _ _ => trivial

theorem spec_scanPage (group : Nat) (after : Option Bytes) :
    (collecting c w₀).Spec (fun w => TrimmedThrough c.retention (w₀.groups group) (w.groups group) after)
      (c.scanPage group after) fun r w => r.elim
        (fun after => TrimmedThrough c.retention (w₀.groups group) (w.groups group) after)
        fun _ => TrimmedWhole c.retention (w₀.groups group) (w.groups group) := by
  refine Spec.bind (M := fun v w => v.status.dryRun = false ∧
    TrimmedThrough c.retention (w₀.groups group) (w.groups group) after)
    (Spec.get fun w hw htrim => ⟨hw.real, htrim⟩) ?_
  intro v
  refine Spec.assume (p := v.status.dryRun = false) (fun _ _ h => h.1) ?_
  intro hreal
  rw [hreal]
  refine Spec.bind (spec_session (reports_page (hs group) after) _) ?_
  rintro ⟨keys, count, size⟩
  have hstable : (collecting c w₀).Stable fun w =>
      (keys.length < c.batchSize → TrimmedWhole c.retention (w₀.groups group) (w.groups group)) ∧
      ∀ last, keys.getLast? = some last → last.Encodable ∧ TrimmedThrough c.retention
        (w₀.groups group) (w.groups group) (some (last.encode .tags)) :=
    (stable_whole group).imp.and (Stable.forall fun last => Stable.imp
      ((Stable.const _).and (stable_through group _)))
  refine Spec.bind (M := fun _ w =>
    (keys.length < c.batchSize → TrimmedWhole c.retention (w₀.groups group) (w.groups group)) ∧
      ∀ last, keys.getLast? = some last → last.Encodable ∧ TrimmedThrough c.retention
        (w₀.groups group) (w.groups group) (some (last.encode .tags))) (Spec.modify ?_) fun _ => ?_
  · rintro w' hw' ⟨w, hw, ⟨_, htrim⟩, ks, hks, hkeys, hcollected⟩
    dsimp only at hkeys hcollected
    subst hkeys
    refine ⟨.inr ⟨⟨hw'.real, hw'.thinned, hw'.settled⟩, fun _ => Finset.Subset.refl _⟩, ?_, ?_⟩
    · intro hshort k hk
      refine (hw.thinned group).page hks htrim hcollected hk fun hlisted => ?_
      rw [length_take] at hshort
      rwa [take_of_length_le (by omega)]
    · intro last hlast
      have hin : last ∈ (w.groups group).held :=
        ((hks.mem (hw.thinned group).clean.toSound last).mp (mem_of_mem_take (mem_of_getLast? hlast))).1
      refine ⟨(hw.thinned group).clean.toSound.encodable_of_held hin, ?_⟩
      intro k hk hle
      obtain ⟨b, hb, hle⟩ := hle
      cases hb
      exact (hw.thinned group).page hks htrim hcollected hk fun hlisted => hks.through hlast hlisted hle
  · by_cases hshort : keys.length < c.batchSize
    · rw [if_pos hshort]
      exact Spec.ret fun w _ h => h.1 hshort
    · rw [if_neg hshort]
      refine Spec.bind (M := fun b w =>
        TrimmedThrough c.retention (w₀.groups group) (w.groups group) (some b)) (Spec.lift ?_) ?_
      · intro b w _ h hcursor
        unfold cursorAfter at hcursor
        split at hcursor
        · cases hcursor
        · rename_i last hlast
          obtain ⟨henc, hthrough⟩ := h.2 last hlast
          rw [Key.toBytes_tags_eq_ok.mpr ⟨henc, rfl⟩] at hcursor
          cases hcursor
          exact hthrough
      · intro b
        refine Spec.bind ((Spec.whenever (Q := fun _ _ => True) (fun _ => (spec_hotStep hs).anywhere)
          fun _ _ _ _ => trivial).keep (stable_through group (some b))) fun _ => ?_
        exact Spec.ret fun w _ h => h.1

theorem spec_scan : (collecting c w₀).Spec (fun _ => True) c.scan fun _ w =>
      ∀ group < c.partitioner.totalGroups, TrimmedWhole c.retention (w₀.groups group) (w.groups group) := by
  have hgroup (group : Nat) (_ : group ∈ range c.partitioner.totalGroups) :
      (collecting c w₀).Spec (fun _ => True) (c.scanGroup group) fun _ w =>
        TrimmedWhole c.retention (w₀.groups group) (w.groups group) := by
    refine (Spec.iterate (fun after => spec_scanPage hs group after) c.fuel none).pre ?_
    rintro w _ _ k _ ⟨b, hb, _⟩
    cases hb
  refine (Spec.each_of_stable (Stable.const True) (fun group => stable_whole group) hgroup).post ?_
  intro _ w _ h group hlt
  exact h.2 group (mem_range.mpr hlt)

end Collecting

end Tourillon
