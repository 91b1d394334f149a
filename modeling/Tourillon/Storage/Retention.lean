import Tourillon.Library.TopVersions
import Tourillon.Storage.Holdings
import Tourillon.Storage.SessionSpec

namespace Tourillon

open Endian Exceptional TopVersions List Key

variable {g : GroupStorage} {p : RetentionPolicy} {keys : List Key}

structure RetentionPolicy where
  versions : Nat
  positive : 1 ≤ versions

inductive WriteDisposition where
  | applied
  | alreadyPresent
  | ignoredRetention
  deriving DecidableEq, Repr

structure VersionLookup where
  exact : Option Record
  identities : List KeyTag
  outsideRetention : Bool

namespace RetentionPolicy

def newest (p : RetentionPolicy) (g : GroupStorage) (keys : List Key) :
    Except PyError (List (PartitionAddress × List KeyTag)) :=
  g.latestIdentitiesMany (keys.map partitionAddress) p.versions

def identitiesOf (newest : List (PartitionAddress × List KeyTag)) (key : Key) : Except PyError (List KeyTag) :=
  match newest.lookup key.partitionAddress with
  | some identities => .ok identities
  | none => .error (.keyError key.partitionAddress.encode)

def outside (p : RetentionPolicy) (newest : List (PartitionAddress × List KeyTag)) (key : Key) :
    Except PyError Bool := do
  let identities ← identitiesOf newest key
  return decide (p.versions ≤ (identities.filter fun item => key.ts < item.key.ts).length)

def dispositions : List Bool → List Bool → List WriteDisposition
  | [], _ => []
  | false :: accepted, inserted => .ignoredRetention :: dispositions accepted inserted
  | true :: _, [] => []
  | true :: accepted, ok :: inserted =>
    (if ok then .applied else .alreadyPresent) :: dispositions accepted inserted

def apply [Blake2b] (p : RetentionPolicy) (s : GroupSession) (records : List Record) :
    Except PyError (List WriteDisposition × GroupSession) := do
  let newest ← p.newest s.storage (records.map fun r => r.key)
  let outs ← records.mapM fun r => p.outside newest r.key
  let accepted := outs.map (!·)
  let selected := ((records.zip accepted).filter Prod.snd).map Prod.fst
  let (inserted, s) ← s.putMany selected
  return (dispositions accepted inserted, s)

def lookup (p : RetentionPolicy) (g : GroupStorage) (key : Key) : Except PyError VersionLookup := do
  let newest ← p.newest g [key]
  let exact ← g.read key
  let identities ← identitiesOf newest key
  let out ← p.outside newest key
  return ⟨exact, identities, out⟩

def collect [Blake2b] (p : RetentionPolicy) (s : GroupSession) (keys : List Key)
    (dryRun : Bool := false) : Except PyError ((Nat × Nat) × GroupSession) := do
  let newest ← p.newest s.storage keys
  let distinct := keys.eraseDups
  let outs ← distinct.mapM (p.outside newest)
  let candidates := ((distinct.zip outs).filter Prod.snd).map Prod.fst
  s.remove candidates dryRun

end RetentionPolicy

def Key.newerThan (k k' : Key) : Prop := k'.partitionAddress = k.partitionAddress ∧ k.ts < k'.ts

instance : DecidableRel newerThan := fun _ _ => inferInstanceAs (Decidable (_ ∧ _))

theorem Key.newerThan_trans (a b c : Key) (hab : a.newerThan b) (hbc : b.newerThan c) :
    a.newerThan c := ⟨hbc.1.trans hab.1, hab.2.trans hbc.2⟩

theorem Key.newerThan_irrefl (a : Key) : ¬ a.newerThan a := fun h => lt_irrefl _ h.2

theorem identity_eq_some {key : Key} {i : KeyTag} (h : g.identity key = .ok (some i)) :
    i.key = key ∧ OwnedIn g.tags key := by
  simp only [GroupStorage.identity, bind_eq_ok, toBytes_tags_eq_ok] at h
  obtain ⟨_, ⟨henc, rfl⟩, h⟩ := h
  split at h
  · cases h
  · rename_i value hv
    simp only [bind_eq_ok, pure_eq_ok] at h
    obtain ⟨tag, htag, h⟩ := h
    split at h
    · rename_i ho
      cases h
      exact ⟨rfl, henc, value, hv, (ownedTagValue_of_fromBytes htag).trans ho⟩
    · cases h

theorem identities_sublist {found : List (Option KeyTag)} (h : keys.mapM g.identity = .ok found) :
    (found.reduceOption.map fun i => i.key).Sublist keys := by
  rw [mapM_eq_ok] at h
  induction h with
  | nil => exact List.Sublist.slnil
  | @cons key r keys found hr _ ih =>
    cases r with
    | none => exact ih.cons key
    | some i =>
      rw [reduceOption_cons_of_some, map_cons, (identity_eq_some hr).1]
      exact ih.cons_cons key

structure IdentityPage (g : GroupStorage) (limit : Nat) (addr : PartitionAddress)
    (identities : List KeyTag) : Prop where
  nodup : (identities.map fun i => i.key).Nodup
  bounded : identities.length ≤ limit
  address : ∀ i ∈ identities, i.key.partitionAddress = addr
  owned : ∀ i ∈ identities, OwnedIn g.tags i.key

theorem latestIdentities_page (hl : WellLogged g.logs) {limit : Nat} {addr : PartitionAddress}
    {identities : List KeyTag} (h : g.latestIdentities limit addr = .ok identities) :
    IdentityPage g limit addr identities := by
  simp only [GroupStorage.latestIdentities, bind_eq_ok, pure_eq_ok, PartitionAddress.toBytes_eq_ok] at h
  obtain ⟨_, ⟨henc, rfl⟩, keys, hkeys, found, hfound, rfl⟩ := h
  have hsub := identities_sublist hfound
  have hdec (b : Bytes) (hb : b ∈ g.keys .logs (some addr.encode) none limit true) (k : Key)
      (hk : fromBytes .logs b = .ok k) :
      k.Encodable ∧ b = k.encode .logs ∧ k.partitionAddress = addr := by
    obtain ⟨e, he, rfl⟩ := mem_map.mp hb
    obtain ⟨hmem, hpre⟩ := GroupStorage.mem_list he
    obtain ⟨k', hk', hkey⟩ := hl e hmem
    rw [hkey, fromBytes_logs_encode hk'] at hk
    obtain rfl : k' = k := Except.ok.inj hk
    refine ⟨hk', hkey, (prefix_logs_iff henc hk').mp ?_⟩
    rw [← hkey]
    simpa [GroupStorage.startsWith] using hpre
  have hback := eq_map_of_mapM_ok (fun b hb k hk => (hdec b hb k hk).2.1) hkeys
  have hnodup : keys.Nodup := by
    have hp := g.nodup_keys .logs (some addr.encode) none limit true
    rw [hback] at hp
    exact hp.of_map
  have hlen : keys.length ≤ limit := by
    have hp := g.length_list_le .logs (some addr.encode) none limit true
    have hk := congrArg length hback
    simp only [GroupStorage.keys, length_map] at hk
    omega
  have hid (i : KeyTag) (hi : i ∈ found.reduceOption) :
      i.key.partitionAddress = addr ∧ OwnedIn g.tags i.key := by
    obtain ⟨k, hk, hik⟩ := exists_of_mem_mapM_right hfound (reduceOption_mem_iff.mp hi)
    obtain ⟨hkey, howned⟩ := identity_eq_some hik
    obtain ⟨b, hb, hbk⟩ := exists_of_mem_mapM_right hkeys hk
    rw [hkey]
    exact ⟨(hdec b hb k hbk).2.2, howned⟩
  refine ⟨hnodup.sublist hsub, ?_, fun i hi => (hid i hi).1, fun i hi => (hid i hi).2⟩
  have hle := hsub.length_le
  rw [length_map] at hle
  exact hle.trans hlen

theorem lookup_newest (hl : WellLogged g.logs) {newest : List (PartitionAddress × List KeyTag)}
    (h : p.newest g keys = .ok newest) {key : Key} {identities : List KeyTag}
    (hi : RetentionPolicy.identitiesOf newest key = .ok identities) :
    IdentityPage g p.versions key.partitionAddress identities := by
  unfold RetentionPolicy.identitiesOf at hi
  split at hi
  · rename_i found hfound
    cases hi
    obtain ⟨_, _, heq, _⟩ := lookup_eq_some_iff.mp hfound
    have hmem : (key.partitionAddress, identities) ∈ newest := by
      rw [heq]
      simp
    obtain ⟨addr, _, hpage⟩ := exists_of_mem_mapM_right h hmem
    simp only [bind_eq_ok, pure_eq_ok, Prod.mk.injEq] at hpage
    obtain ⟨ids, hids, rfl, rfl⟩ := hpage
    exact latestIdentities_page hl hids
  · cases hi

def pageOf (newest : List (PartitionAddress × List KeyTag)) (key : Key) : Finset Key :=
  (((newest.lookup key.partitionAddress).getD []).map fun i => i.key).toFinset

structure OutsidePage (p : RetentionPolicy) (g : GroupStorage)
    (newest : List (PartitionAddress × List KeyTag)) (key : Key) : Prop where
  held : pageOf newest key ⊆ g.held
  bounded : (pageOf newest key).card ≤ p.versions
  same : ∀ q ∈ pageOf newest key, pageOf newest q = pageOf newest key
  covered : Covered newerThan p.versions (pageOf newest key) key

theorem outsidePage_of_outside (hl : WellLogged g.logs) (hk : WellKeyed g.tags)
    {newest : List (PartitionAddress × List KeyTag)} (h : p.newest g keys = .ok newest) {key : Key}
    (ho : p.outside newest key = .ok true) : OutsidePage p g newest key := by
  simp only [RetentionPolicy.outside, bind_eq_ok, pure_eq_ok, decide_eq_true_iff] at ho
  obtain ⟨identities, hi, hcount⟩ := ho
  have hpage := lookup_newest hl h hi
  have hlook : newest.lookup key.partitionAddress = some identities := by
    unfold RetentionPolicy.identitiesOf at hi
    split at hi
    · cases hi
      assumption
    · cases hi
  have heq : pageOf newest key = (identities.map fun i => i.key).toFinset := by simp [pageOf, hlook]
  refine ⟨?_, ?_, ?_, ?_⟩
  · rw [heq]
    intro q hq
    obtain ⟨i, him, rfl⟩ := mem_map.mp (mem_toFinset.mp hq)
    exact (mem_held hk).mpr (hpage.owned i him)
  · rw [heq]
    refine (toFinset_card_le _).trans ?_
    rw [length_map]
    exact hpage.bounded
  · intro q hq
    rw [heq] at hq
    obtain ⟨i, him, rfl⟩ := mem_map.mp (mem_toFinset.mp hq)
    simp only [pageOf, hpage.address i him]
  · have hsub := (filter_sublist (p := fun item : KeyTag => key.ts < item.key.ts)
      (l := identities)).map fun i => i.key
    have hcard := toFinset_card_of_nodup (hpage.nodup.sublist hsub)
    rw [length_map] at hcard
    rw [← hcard] at hcount
    refine hcount.trans (Finset.card_le_card ?_)
    intro q hq
    obtain ⟨i, him, rfl⟩ := mem_map.mp (mem_toFinset.mp hq)
    obtain ⟨himem, hts⟩ := mem_filter.mp him
    rw [heq]
    refine Finset.mem_filter.mpr ⟨?_, hpage.address i himem, by simpa using hts⟩
    exact mem_toFinset.mpr (mem_map.mpr ⟨i, himem, rfl⟩)

theorem zip_filter_cases {α : Type} {f : α → Except PyError Bool} {xs : List α} {outs : List Bool}
    (h : xs.mapM f = .ok outs) : (∀ x ∈ ((xs.zip outs).filter Prod.snd).map Prod.fst, x ∈ xs ∧ f x = .ok true) ∧
      ∀ x ∈ xs, x ∈ ((xs.zip (outs.map (!·))).filter Prod.snd).map Prod.fst ∨ f x = .ok true := by
  rw [mapM_eq_ok] at h
  induction h with
  | nil => simp
  | @cons x out xs outs hx _ ih =>
    obtain ⟨ihl, ihr⟩ := ih
    cases out with
    | true =>
      refine ⟨?_, ?_⟩
      · intro y hy
        rcases mem_cons.mp hy with rfl | hy
        · exact ⟨by simp, hx⟩
        · exact ⟨mem_cons_of_mem _ (ihl y hy).1, (ihl y hy).2⟩
      · intro y hy
        rcases mem_cons.mp hy with rfl | hy
        · exact .inr hx
        · exact ihr y hy
    | false =>
      refine ⟨?_, ?_⟩
      · intro y hy
        exact ⟨mem_cons_of_mem _ (ihl y hy).1, (ihl y hy).2⟩
      · intro y hy
        rcases mem_cons.mp hy with rfl | hy
        · exact .inl mem_cons_self
        · exact (ihr y hy).imp_left (mem_cons_of_mem _)

theorem selected_subset {records : List Record} {accepted : List Bool} {r : Record}
    (h : r ∈ ((records.zip accepted).filter Prod.snd).map Prod.fst) : r ∈ records := by
  obtain ⟨e, he, rfl⟩ := mem_map.mp h
  exact (of_mem_zip (mem_of_mem_filter he)).1

variable [Blake2b]

theorem apply_cases {s s' : GroupSession} (hs : Holding s.storage) {records : List Record}
    {ds : List WriteDisposition} (h : p.apply s records = .ok (ds, s')) :
    ∃ selected inserted, (∀ r ∈ selected, r ∈ records) ∧ s.putMany selected = .ok (inserted, s') ∧
      ∀ r ∈ records, r ∈ selected ∨ Covered newerThan p.versions s.storage.held r.key := by
  simp only [RetentionPolicy.apply, bind_eq_ok, pure_eq_ok, Prod.mk.injEq] at h
  obtain ⟨newest, hn, outs, houts, ⟨inserted, s₁⟩, hput, _, rfl⟩ := h
  refine ⟨_, inserted, fun r hr => selected_subset hr, hput, ?_⟩
  intro r hr
  rcases (zip_filter_cases houts).2 r hr with hsel | hout
  · exact .inl hsel
  · have hpage := outsidePage_of_outside hs.logKeys hs.tagKeys hn hout
    exact .inr (hpage.covered.mono hpage.held)

theorem collect_cases {s s' : GroupSession} (hs : Holding s.storage) {dryRun : Bool} {result : Nat × Nat}
    (h : p.collect s keys dryRun = .ok (result, s')) : ∃ candidates, s.remove candidates dryRun = .ok (result, s') ∧
      (∀ k ∈ candidates, k ∈ keys) ∧ ∀ D : Finset Key, (∀ d ∈ D, d ∈ candidates) →
        ∀ d ∈ D, Covered newerThan p.versions (s.storage.held \ D) d := by
  simp only [RetentionPolicy.collect, bind_eq_ok] at h
  obtain ⟨newest, hn, outs, houts, hrem⟩ := h
  have hcand := (zip_filter_cases houts).1
  refine ⟨_, hrem, fun k hk => mem_eraseDups.mp (hcand k hk).1, ?_⟩
  intro D hD
  have hpage (d : Key) (hd : d ∈ D) : OutsidePage p s.storage newest d :=
    outsidePage_of_outside hs.logKeys hs.tagKeys hn (hcand d (hD d hd)).2
  exact covered_sdiff_of_pages newerThan_irrefl (fun d hd => (hpage d hd).held)
    (fun d hd => (hpage d hd).bounded) (fun d hd => (hpage d hd).same)
    fun d hd => (hpage d hd).covered

end Tourillon
