import Tourillon.AntiEntropy.Courier
import Tourillon.AntiEntropy.TransferSpec

namespace Tourillon

open Exceptional Prog Protocol Sequence TopVersions List GroupSessionManager ChunkAcc GroupStorage

variable {records : List (Key × Record)} {ob : ObligationKey} {g : GroupStorage} {r : Record}
  {obligations chunk : List ObligationKey}

theorem reaches_of_retained {p : RetentionPolicy} {k : Key} (h : Retained Key.newerThan p.versions g.held k) :
    g.Reaches k.partitionAddress k.ts := by
  rcases h with hin | hcovered
  · exact ⟨k, hin, rfl, le_rfl⟩
  · obtain ⟨q, hq⟩ := Finset.card_pos.mp (p.positive.trans hcovered)
    obtain ⟨hheld, hsame, hlt⟩ := Finset.mem_filter.mp hq
    exact ⟨q, hheld, hsame, hlt.le⟩

theorem applyRecords_undisturbed [Blake2b] (p : RetentionPolicy) (commit : Except PyError Unit)
    (records : List Record) (g : GroupStorage) : applyRecords p ⟨fun _ => .ok (), commit⟩ records g =
      session (fun s => p.apply s records) commit g := by
  unfold applyRecords
  congr 1
  funext s
  cases p.apply s records <;> rfl

def Supersedes (r : Record) (key : Key) : Prop :=
  CleanRecord r ∧ r.key.partitionAddress = key.partitionAddress ∧ key.ts ≤ r.key.ts

theorem covering_ok (h : covering records ob = .ok r) : (ob.key, r) ∈ records := by
  unfold covering at h
  split at h
  · rename_i found hlookup
    cases h
    exact mem_of_lookup_eq_some hlookup
  · cases h

theorem foldl_chunks (maxBytes : Nat) (costed : List (Nat × List ObligationKey)) (acc : ChunkAcc) :
    (costed.foldl (add maxBytes) acc).done.flatten ++ (costed.foldl (add maxBytes) acc).current =
      acc.done.flatten ++ acc.current ++ costed.flatMap Prod.snd := by
  induction costed generalizing acc with
  | nil => simp
  | cons e costed ih =>
    rw [foldl_cons, ih, add]
    split <;> simp

theorem mem_of_obligationChunks {maxBytes : Nat} {chunks : List (List ObligationKey)}
    (h : obligationChunks obligations records maxBytes = .ok chunks) (hc : chunk ∈ chunks) (hob : ob ∈ chunk) :
    ob ∈ obligations := by
  simp only [obligationChunks, bind_eq_ok, pure_eq_ok] at h
  obtain ⟨keyed, hkeyed, costed, hcosted, rfl⟩ := h
  have hflat : ob ∈ (costed.foldl (add maxBytes) {}).done.flatten ++
      (costed.foldl (add maxBytes) {}).current := by
    split at hc
    · exact mem_append_left _ (mem_flatten.mpr ⟨chunk, hc, hob⟩)
    · rcases mem_append.mp hc with hdone | hcurrent
      · exact mem_append_left _ (mem_flatten.mpr ⟨chunk, hdone, hob⟩)
      · rw [mem_singleton.mp hcurrent] at hob
        exact mem_append_right _ hob
  rw [foldl_chunks] at hflat
  obtain ⟨e, he, hin⟩ := mem_flatMap.mp hflat
  obtain ⟨debts, hdebts, hcost⟩ := exists_of_mem_mapM_right hcosted he
  simp only [bind_eq_ok, pure_eq_ok] at hcost
  obtain ⟨cost, _, rfl⟩ := hcost
  obtain ⟨key, debts⟩ := debts
  rw [gather_values hdebts] at hin
  obtain ⟨pair, hpair, rfl⟩ := mem_map.mp hin
  obtain ⟨ob', hob', hmake⟩ := exists_of_mem_mapM_right hkeyed (mem_filter.mp hpair).1
  simp only [bind_eq_ok, pure_eq_ok] at hmake
  obtain ⟨r, _, rfl⟩ := hmake
  exact hob'

theorem uniqueRecords_ok {unique : List Record} (h : uniqueRecords records chunk = .ok unique) :
    (∀ r ∈ unique, ∃ ob ∈ chunk, (ob.key, r) ∈ records) ∧
      ∀ ob ∈ chunk, ∃ r, (ob.key, r) ∈ records ∧ r.key ∈ unique.map fun q => q.key := by
  simp only [uniqueRecords, bind_eq_ok, pure_eq_ok] at h
  obtain ⟨keyed, hkeyed, rfl⟩ := h
  have hsource (pair : Key × Record) (hpair : pair ∈ keyed) :
      ∃ ob ∈ chunk, (ob.key, pair.2) ∈ records ∧ pair.1 = pair.2.key := by
    obtain ⟨ob, hob, hmake⟩ := exists_of_mem_mapM_right hkeyed hpair
    simp only [bind_eq_ok, pure_eq_ok] at hmake
    obtain ⟨r, hr, rfl⟩ := hmake
    exact ⟨ob, hob, covering_ok hr, rfl⟩
  have hmember (e : Key × List Record) (he : e ∈ gather keyed) (r : Record) (hr : r ∈ e.2) :
      (e.1, r) ∈ keyed := by
    obtain ⟨key, vs⟩ := e
    rw [gather_values he] at hr
    obtain ⟨pair, hpair, rfl⟩ := mem_map.mp hr
    obtain ⟨hin, hkey⟩ := mem_filter.mp hpair
    rw [← decide_eq_true_iff.mp hkey]
    exact hin
  constructor
  · intro r hr
    obtain ⟨e, he, hlast⟩ := mem_filterMap.mp hr
    obtain ⟨ob, hob, hin, _⟩ := hsource _ (hmember e he r (mem_of_getLast? hlast))
    exact ⟨ob, hob, hin⟩
  · intro ob hob
    obtain ⟨pair, hpair, hmake⟩ := exists_of_mem_mapM hkeyed hob
    simp only [bind_eq_ok, pure_eq_ok] at hmake
    obtain ⟨r, hr, rfl⟩ := hmake
    obtain ⟨vs, hvs, hin⟩ := exists_mem_gather hpair
    have hne : vs ≠ [] := ne_nil_of_mem hin
    have hlast : vs.getLast? = some (vs.getLast hne) := getLast?_eq_some_getLast hne
    refine ⟨r, covering_ok hr, mem_map.mpr ⟨vs.getLast hne, ?_, ?_⟩⟩
    · exact mem_filterMap.mpr ⟨(r.key, vs), hvs, hlast⟩
    · obtain ⟨_, _, _, hkey⟩ := hsource _ (hmember (r.key, vs) hvs _ (getLast_mem hne))
      exact hkey.symm

theorem mem_of_deliveryOrder {ordered : List ObligationKey} (h : deliveryOrder obligations = .ok ordered)
    (hob : ob ∈ ordered) : ob ∈ obligations := by
  simp only [deliveryOrder, bind_eq_ok, pure_eq_ok] at h
  obtain ⟨keyed, hkeyed, rfl⟩ := h
  obtain ⟨pair, hpair, rfl⟩ := mem_map.mp hob
  obtain ⟨ob', hob', hmake⟩ := exists_of_mem_mapM_right hkeyed ((mem_insertionSort _).mp hpair)
  simp only [bind_eq_ok, pure_eq_ok] at hmake
  obtain ⟨raw, _, rfl⟩ := hmake
  exact hob'

namespace Courier

variable [Blake2b] {co : Courier} {records : List Record} {target : String} {α : Type}

def calm (co : Courier) : Protocol World where
  inv w := Wholesome w.shared
  move w w' := Continues co.node w.shared w'.shared
  keeps _ h := h.wholesome

theorem stable_reaches (n : String) (i : Nat) (addr : PartitionAddress) (ts : HLCTimestamp) :
    co.calm.Stable fun w => (w.shared.storage n i).Reaches addr ts :=
  fun _ _ _ h => h.reaches n i addr ts

theorem continues_of_reach {w w' : World} (h : co.calm.Reach w w') (hw : Wholesome w.shared) :
    Continues co.node w.shared w'.shared := by
  induction h with
  | refl => exact hw.continues co.node
  | tail _ hmove ih => exact ih.trans hmove

variable {A : World → Prop}

theorem spec_interfere (hA : co.calm.Stable A) : co.calm.Spec A co.cluster.interfere fun _ => A := by
  refine Spec.modify fun w hw hpre => ?_
  have hmove : Continues co.node w.shared (co.cluster.env.step w.tick w.shared) :=
    hw.acts_elsewhere (co.sole w.tick)
  exact ⟨.inr hmove, hA w _ hw hmove hpre⟩

theorem spec_transit (hA : co.calm.Stable A) : co.calm.Spec A co.cluster.transit fun _ => A := by
  refine Spec.bind (spec_interfere hA) fun _ => ?_
  refine Spec.bind (Spec.get (Q := fun _ => A) fun w _ hw => hw) fun w => ?_
  cases co.cluster.env.fault w.tick with
  | none => exact Spec.ret fun _ _ hw => hw
  | some e => exact Spec.raise

theorem spec_readSession (group : Nat) (f : GroupStorage → Except PyError α) :
    co.calm.Spec (fun _ => True) (co.cluster.readSession co.node group f)
      fun a _ => ∃ g, Clean g ∧ f g = .ok a := by
  refine Spec.bind (spec_interfere (Stable.const _)) fun _ => ?_
  refine Spec.bind (Spec.get (Q := fun w w' => w = w') fun _ _ _ => rfl) fun w => ?_
  refine Spec.bind (M := fun a _ => ∃ g, Clean g ∧ f g = .ok a) ?_ fun a => ?_
  · refine Spec.lift fun a w' hw' heq hr => ?_
    subst heq
    exact ⟨_, hw'.clean co.node group, mapError_eq_ok hr⟩
  · refine Spec.bind (spec_interfere (Stable.const _)) fun _ => ?_
    exact Spec.ret fun _ _ h => h

def Newest (address : PartitionAddress) (record : Option Record) : Prop :=
  ∀ r, record = some r → CleanRecord r ∧ r.key.partitionAddress = address

theorem spec_latestRecord (byAddress : List (PartitionAddress × Option Record))
    (address : PartitionAddress) (hseen : ∀ e ∈ byAddress, Newest e.1 e.2) :
    co.calm.Spec (fun _ => True) (latestRecord co.cluster co.node byAddress address)
      fun record _ => Newest address record := by
  unfold latestRecord
  split
  · rename_i record hlookup
    exact Spec.ret fun _ _ _ => hseen _ (mem_of_lookup_eq_some hlookup)
  · refine (spec_readSession _ _).post ?_
    rintro record w _ ⟨g, hg, hnewest⟩ r rfl
    obtain ⟨⟨_, haddress⟩, hclean, _⟩ := of_newest hg.toSound hnewest
    exact ⟨hclean, haddress⟩

theorem spec_latestRecords (obligations : List ObligationKey) (byAddress : List (PartitionAddress × Option Record))
    (hseen : ∀ e ∈ byAddress, Newest e.1 e.2) :
    co.calm.Spec (fun _ => True) (latestRecords co.cluster co.node obligations byAddress)
      fun found _ => ∀ e ∈ found, Supersedes e.2 e.1 := by
  induction obligations generalizing byAddress with
  | nil => exact Spec.ret fun _ _ _ => nofun
  | cons ob obligations ih =>
    refine Spec.bind (spec_latestRecord byAddress ob.address hseen) fun record => ?_
    refine Spec.assume (p := Newest ob.address record) (fun _ _ h => h) fun hrecord => ?_
    refine Spec.bind ((ih ((ob.address, record) :: byAddress) ?_).pre fun _ _ _ => trivial)
      fun found => Spec.ret fun _ _ h => ?_
    · intro e he
      rcases mem_cons.mp he with rfl | he
      · exact hrecord
      · exact hseen e he
    · cases record with
      | none => exact h
      | some r =>
        obtain ⟨hclean, haddr⟩ := hrecord r rfl
        dsimp only
        split
        · rename_i hts
          intro e he
          rcases mem_cons.mp he with rfl | he
          · exact ⟨hclean, haddr, hts⟩
          · exact h e he
        · exact h

def Landed (co : Courier) (target : String) (pid : Nat) (records : List Record) (w : World) : Prop :=
  ∀ r, r ∈ records → (w.shared.storage target (co.cluster.groupFor pid)).Reaches
    r.key.partitionAddress r.key.ts

theorem stable_landed (target : String) (pid : Nat) (records : List Record) :
    co.calm.Stable (co.Landed target pid records) :=
  Stable.forall fun _ => (stable_reaches _ _ _ _).imp

section

variable (ht : target ≠ co.node) (pid : Nat) (hr : ∀ r ∈ records, CleanRecord r)

include ht hr

theorem spec_applyBatch :
    co.calm.Spec (fun _ => True) (co.cluster.writeSession target (co.cluster.groupFor pid) fun s =>
        (co.cluster.policy target).apply s records) fun _ => co.Landed target pid records := by
  refine Spec.bind (spec_interfere (Stable.const _)) fun _ => ?_
  refine Spec.bind (M := fun _ => co.Landed target pid records) (Spec.act ?_) fun ds => ?_
  · intro w hw _
    have hclean := hw.clean target (co.cluster.groupFor pid)
    have hkept := (apply_session hr hclean (Prod.eta (session
      (fun s => (co.cluster.policy target).apply s records) (co.cluster.env.commit w.tick)
      (w.shared.storage target (co.cluster.groupFor pid)))).symm).2
    obtain ⟨hclean', hcases⟩ := applyRecords_spec (co.cluster.policy target)
      ⟨fun _ => .ok (), co.cluster.env.commit w.tick⟩ target hclean
      fun r hrm => ⟨(hr r hrm).owned, (hr r hrm).readable, (hr r hrm).quorum⟩
    rw [applyRecords_undisturbed] at hclean' hcases
    have heffect : Effect (co.cluster.policy target) target records
        (w.shared.storage target (co.cluster.groupFor pid))
        (session (fun s => (co.cluster.policy target).apply s records)
          (co.cluster.env.commit w.tick) (w.shared.storage target (co.cluster.groupFor pid))).2 := by
      rcases hcases with ⟨e, herror⟩ | ⟨outcomes, selected, _, hsub, hadded⟩
      · rw [herror]
        exact Effect.refl _ _ _ _
      · exact .added selected [] hsub hadded
    refine ⟨.inr (hw.adds hclean' heffect fun heq => absurd heq ht), ?_⟩
    intro ds hds r hrm
    show ((w.shared.withGroup target (co.cluster.groupFor pid) _).storage _ _).Reaches _ _
    rw [Shared.storage_withGroup, if_pos ⟨rfl, rfl⟩]
    exact reaches_of_retained (hkept ds (mapError_eq_ok hds) r hrm)
  · refine Spec.bind (spec_interfere (stable_landed _ _ _)) fun _ => ?_
    exact Spec.ret fun _ _ h => h

theorem spec_applyResult : co.calm.Spec (fun _ => True) (LocalStore.applyResult co.cluster target pid records)
      fun _ => co.Landed target pid records := by
  refine Spec.bind ((Spec.collect (fun done w => ∀ x : List Record × List WriteDisposition,
    x ∈ done → co.Landed target pid x.1 w) ?_).pre ?_) fun outcomes => Spec.ret ?_
  · intro done batch hb
    have hdone : co.calm.Stable fun w => ∀ x : List Record × List WriteDisposition, x ∈ done →
        co.Landed target pid x.1 w := Stable.forall fun x => (stable_landed _ _ _).imp
    refine Spec.seq hdone
      (spec_applyBatch ht pid fun r hrb => hr r (mem_of_mem_batches hb hrb)).anywhere fun ds => ?_
    refine Spec.bind (spec_interfere (hdone.and (stable_landed _ _ _))) fun _ => Spec.ret ?_
    rintro w _ ⟨hbefore, hnow⟩ x hx
    rcases mem_append.mp hx with hx | hx
    · exact hbefore x hx
    · rw [mem_singleton.mp hx]
      exact hnow
  · intro w _ _ x hx
    cases hx
  · rintro w _ ⟨hlen, hlanded⟩ r hrm
    rw [← batches_flatten records] at hrm
    obtain ⟨batch, hb, hrb⟩ := mem_flatten.mp hrm
    obtain ⟨ds, hds⟩ := (exists_mem_zip hlen).1 batch hb
    exact hlanded _ hds r hrb

end

theorem spec_python {r : Except PyError α} : co.calm.Spec A (Cluster.python r) fun a w => A w ∧ r = .ok a :=
  Spec.lift fun _ _ _ hpre hr => ⟨hpre, mapError_eq_ok hr⟩

def Delivered (co : Courier) (target : String) (records : List Record) (w : World) : Prop :=
  ∀ r, r ∈ records → (w.shared.storage target (co.cluster.groupFor r.key.pid)).Reaches
    r.key.partitionAddress r.key.ts

theorem stable_delivered (target : String) (records : List Record) : co.calm.Stable (co.Delivered target records) :=
  Stable.forall fun _ => (stable_reaches _ _ _ _).imp

variable (ht : target ≠ co.node) (scope : Scope) (hr : ∀ r ∈ records, CleanRecord r)

include ht hr

theorem spec_pushResult : co.calm.Spec (fun _ => True) (Responder.pushResult co.cluster target scope records)
      fun _ => co.Delivered target records := by
  refine Spec.bind spec_python fun _ => ?_
  refine Spec.bind spec_python fun pid => ?_
  refine Spec.bind Spec.guard fun _ => ?_
  refine Spec.bind (M := fun _ _ => ∀ r ∈ records, r.key.pid = pid) (Spec.check ?_) fun _ => ?_
  · intro w _ _ hok r hrm
    rw [not_or, not_not, all_eq_true] at hok
    simpa using hok.2 r hrm
  refine Spec.assume (p := ∀ r ∈ records, r.key.pid = pid) (fun _ _ h => h) fun hpid => ?_
  refine Spec.bind (M := fun _ _ => True) ?_ fun _ => ?_
  · refine Spec.bind (M := fun _ _ => True) (Spec.get fun _ _ _ => trivial) fun w => ?_
    exact Spec.lift fun _ _ _ _ _ => trivial
  · refine (spec_applyResult ht pid fun r hrm => hr r (mem_filter.mp hrm).1).post ?_
    intro result w _ hlanded r hrm
    rw [hpid r hrm]
    exact hlanded r (mem_filter.mpr ⟨hrm, (hr r hrm).owned⟩)

theorem spec_push :
    co.calm.Spec (fun _ => True) (co.push target scope records) fun _ => co.Delivered target records := by
  refine Spec.bind (spec_transit (Stable.const _)) fun _ => ?_
  refine Spec.bind (spec_pushResult ht scope hr) fun result => ?_
  refine Spec.bind (spec_transit (stable_delivered _ _)) fun _ => ?_
  refine Spec.bind (Spec.get (Q := fun _ => co.Delivered target records) fun _ _ h => h) fun w => ?_
  refine Spec.bind spec_python fun acknowledged => ?_
  exact Spec.check fun _ _ h _ => h.1

end Courier

end Tourillon
