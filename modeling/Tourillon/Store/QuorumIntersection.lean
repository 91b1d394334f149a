import Tourillon.Store.WriteQuorum

namespace Tourillon

open Endian Exceptional List PartitionAddress

structure DistinctlyStamped (addr : Address) (S : List Record) : Prop where
  apart : ∀ r ∈ S, ∀ r' ∈ S, r.key.address = addr → r'.key.address = addr →
    r.key.ts.wallMs = r'.key.ts.wallMs → r.key.ts.counter = r'.key.ts.counter → r = r'
  below : ∀ r ∈ S, r.key.address = addr → r.key.ts.wallMs < 2 ^ 63

theorem DistinctlyStamped.mono {addr : Address} {S S' : List Record} (h : DistinctlyStamped addr S')
    (hs : ∀ r ∈ S, r ∈ S') : DistinctlyStamped addr S where
  apart r hr r' hr' := h.apart r (hs r hr) r' (hs r' hr')
  below r hr := h.below r (hs r hr)

section Reading

variable [Blake2b] {d : Deployment} {o : Order} {f : Fleet} {s : Fan} {addr : PartitionAddress} {n : String}
  {i : Nat} {ts : HLCTimestamp}

theorem Consistent.versionOf (h : Consistent f) {k : Key} (hk : k ∈ (f.storage n i).versionsOf addr) :
    ∃ r ∈ f.issued, r.key = k ∧ k.address = addr.address := by
  obtain ⟨hheld, haddr⟩ := GroupStorage.mem_versionsOf.mp hk
  obtain ⟨r, hr, hkey, _⟩ := (h.ledger n i).source k hheld
  exact ⟨r, hr, hkey, congrArg address haddr⟩

theorem Consistent.ordered (h : Consistent f) (hs : DistinctlyStamped addr.address f.issued)
    (n : String) (i : Nat) : Ordered (f.storage n i) addr where
  aligned k hk k' hk' := by
    obtain ⟨r, hr, rfl, haddr⟩ := h.versionOf hk
    obtain ⟨r', hr', rfl, haddr'⟩ := h.versionOf hk'
    intro hwall hcounter
    rw [hs.apart r hr r' hr' haddr haddr' hwall hcounter]
    exact fun hlt => absurd hlt (lt_irrefl _)
  below k hk := by
    obtain ⟨r, hr, rfl, haddr⟩ := h.versionOf hk
    exact lt_of_lt_of_le (hs.below r hr haddr) (by decide)

theorem Consistent.newest (h : Consistent f) (hs : DistinctlyStamped addr.address f.issued)
    (ha : addr.Encodable) {found : Option Record} (hfound : (f.storage n i).newest addr = .ok found) :
    Elected (f.storage n i) addr found := by
  obtain ⟨r, hr, helected⟩ := newest_elected (h.clean n i).toSound ha (h.ordered hs n i)
  obtain rfl : found = r := Except.ok.inj (hfound.symm.trans hr)
  exact helected

theorem Fleet.Adds.reaches {f' : Fleet} (h : f.Adds f') (hc : Consistent f)
    (hr : (f.storage n i).Reaches addr ts) : (f'.storage n i).Reaches addr ts := by
  obtain ⟨records, obligations, hadded⟩ := h n i
  obtain ⟨k, hk, hkey⟩ := hr
  refine ⟨k, ?_, hkey⟩
  rw [hadded.held (hc.clean n i).toHolding]
  exact Finset.mem_union_left _ hk

theorem Coordinating.reaches_step (h : Coordinating o s) (a : FanAction)
    (hr : (s.fleet.storage n i).Reaches addr ts) : ((s.step d o a).fleet.storage n i).Reaches addr ts := by
  cases a with
  | other a => exact ((h.consistent.step a).effect n i).reaches (h.consistent.clean n i).toHolding hr
  | task j a =>
    unfold Fan.step
    dsimp only
    split
    · rename_i t _
      exact (step_spec h.consistent h.issued t a).grows.adds.reaches h.consistent hr
    · exact hr

theorem Coordinating.reaches (h : Coordinating o s) (acts : List FanAction)
    (hr : (s.fleet.storage n i).Reaches addr ts) : ((s.run d o acts).fleet.storage n i).Reaches addr ts := by
  induction acts generalizing s with
  | nil => exact hr
  | cons a acts ih => exact ih (h.step a) (h.reaches_step a hr)

end Reading

def Fan.Answers [Blake2b] (d : Deployment) (o : Order) (s : Fan) (acts : List FanAction)
    (addr : PartitionAddress) (answer : ReadAnswer) : Prop :=
  ∀ n found, answer n = .ok found → s.Sometime d o acts fun f =>
    (f.storage n (d.partitioner.groupFor addr.pid)).newest addr = .ok found

def AllReady (preferences : List Preference) : Prop :=
  ∀ e ∈ preferences, e.readable = true ∧ e.handoff = none ∧ e.writable = true

section Owners

variable {preferences : List Preference} (h : AllReady preferences)

include h

theorem AllReady.target {n : String} {intent : Option String} (hin : (n, intent) ∈ writeTargets preferences) :
    n ∈ (preferences.map fun e => e.nodeId).toFinset := by
  obtain ⟨e, he, htarget⟩ := mem_filterMap.mp hin
  obtain ⟨_, hhandoff, _⟩ := h e he
  rcases mem_writeTarget htarget with ⟨hsome, _⟩ | ⟨_, _, heq⟩
  · rw [hhandoff] at hsome
    cases hsome
  · cases heq
    exact mem_toFinset.mpr (mem_map_of_mem he)

theorem AllReady.source {e : Preference} (he : e ∈ preferences) {source : String} (hs : source ∈ e.sources) :
    source = e.nodeId := by
  obtain ⟨hreadable, hhandoff, _⟩ := h e he
  simpa [Preference.sources, hreadable, hhandoff] using hs

theorem AllReady.meet {copies : Finset String}
    (hcopies : ∀ n ∈ copies, ∃ intent, (n, intent) ∈ writeTargets preferences) {quorum : Nat}
    {answer : ReadAnswer} {reply : ReadReply} (helection : ReadElection preferences quorum answer reply)
    (hquorum : preferences.length < quorum + copies.card) : ∃ n ∈ copies, ∃ found, (n, found) ∈ reply.answers := by
  obtain ⟨owners, hcard, howners⟩ := helection.answered
  have hsub : copies ⊆ (preferences.map fun e => e.nodeId).toFinset := by
    intro n hn
    obtain ⟨intent, hin⟩ := hcopies n hn
    exact h.target hin
  have hsub' : owners ⊆ (preferences.map fun e => e.nodeId).toFinset := by
    intro n hn
    obtain ⟨e, he, rfl, _⟩ := howners n hn
    exact mem_toFinset.mpr (mem_map_of_mem he)
  have hlength : (preferences.map fun e => e.nodeId).toFinset.card < copies.card + owners.card := by
    have hle := toFinset_card_le (preferences.map fun e => e.nodeId)
    rw [length_map] at hle
    omega
  obtain ⟨n, hn⟩ := Finset.inter_nonempty_of_card_lt_card_add_card hsub hsub' hlength
  obtain ⟨hcopy, howner⟩ := Finset.mem_inter.mp hn
  obtain ⟨e, he, rfl, source, hsource, found, hfound⟩ := howners n howner
  rw [h.source he hsource] at hfound
  exact ⟨e.nodeId, hcopy, found, hfound⟩

end Owners

section Intersection

variable [Blake2b] {d : Deployment} {f : Fleet} {node : String} {list : PreferenceList} {addr : Address}
  {value : Bytes} {tombstone : Bool} {quorum : Int} {o : Order} {fan : Fan} {acts : List FanAction}

omit [Blake2b] in
theorem positive_of_beginWrite
    (h : beginWrite f node list addr value tombstone quorum = .ok (o, fan)) : 1 ≤ quorum := by
  simp only [beginWrite, bind_eq_ok] at h
  obtain ⟨_, hquorum, _⟩ := h
  unfold validateQuorum at hquorum
  split at hquorum
  · rename_i hin
    exact hin.1
  · cases hquorum

theorem Begun.version (h : Begun f node list addr o fan) (hq : 1 ≤ quorum)
    {arrivals : List (List Nat)} {version : Option Version}
    (hreturn : acknowledge o.record (writeTargets list.preferences) quorum
      (fan.run d o acts).outcome arrivals = .ok version) : version = some (versionFromRecord o.record) := by
  obtain ⟨done, _, _, hquorum, rfl⟩ := acknowledge_cases hreturn
  rcases selectVersion_cases (versionsFromRecords
      (done.filterMap fun i => ((fan.run d o acts).outcome i).toOption)) with
    ⟨hsel, _⟩ | ⟨v, hsel, hwins⟩
  · rw [hsel] at hquorum
    dsimp only at hquorum
    omega
  · rw [hsel]
    obtain ⟨r, hr, rfl⟩ := mem_map.mp hwins.mem
    obtain ⟨i, _, hi⟩ := mem_filterMap.mp hr
    obtain ⟨_, _, rfl, _⟩ := h.task (mem_toOption.mp hi)
    rfl

structure Moment (d : Deployment) (addr : PartitionAddress) (n : String) (found : Option Record)
    (S : List Record) (f f' : Fleet) : Prop where
  consistent : Consistent f'
  issued : ∀ r ∈ f'.issued, r ∈ S
  reaches : ∀ ts, (f.storage n (d.partitioner.groupFor addr.pid)).Reaches addr ts →
    (f'.storage n (d.partitioner.groupFor addr.pid)).Reaches addr ts
  found : (f'.storage n (d.partitioner.groupFor addr.pid)).newest addr = .ok found

theorem Fan.Answers.moment {s : Fan} {addr : PartitionAddress} {answer : ReadAnswer}
    (h : s.Answers d o acts addr answer) (hc : Coordinating o s) {n : String} {found : Option Record}
    (hn : answer n = .ok found) : ∃ f', Moment d addr n found (s.run d o acts).fleet.issued s.fleet f' := by
  obtain ⟨pre, ⟨rest, rfl⟩, hfound⟩ := h n found hn
  have hthen := hc.run (d := d) pre
  refine ⟨(s.run d o pre).fleet, hthen.consistent, ?_, fun _ hr => hc.reaches pre hr, hfound⟩
  intro r hr
  rw [Fan.run_append]
  exact (hthen.issued_run rest).subset hr

theorem Moment.answer {addr : PartitionAddress} {n : String} {r : Record} {S : List Record}
    {f' : Fleet} (h : Moment d addr n (some r) S f f') (hs : DistinctlyStamped addr.address S)
    (ha : addr.Encodable) : r ∈ S ∧ Storable r ∧ r.key.partitionAddress = addr := by
  obtain ⟨hin, hread, _⟩ := h.consistent.newest (hs.mono h.issued) ha h.found
  obtain ⟨hissued, _, _⟩ := (h.consistent.ledger n _).read h.consistent.storable hread
  exact ⟨h.issued r hissued, h.consistent.storable r hissued, (GroupStorage.mem_versionsOf.mp hin).2⟩

theorem Moment.fresh {addr : PartitionAddress} {n : String} {found : Option Record}
    {S : List Record} {f' : Fleet} (h : Moment d addr n found S f f')
    (hs : DistinctlyStamped addr.address S) (ha : addr.Encodable) {ts : HLCTimestamp}
    (hr : (f.storage n (d.partitioner.groupFor addr.pid)).Reaches addr ts) :
    ∃ r, found = some r ∧ ts ≤ r.key.ts := by
  obtain ⟨k, hk, haddr, hts⟩ := h.reaches ts hr
  have hversion := GroupStorage.mem_versionsOf.mpr ⟨hk, haddr⟩
  have helected := h.consistent.newest (hs.mono h.issued) ha h.found
  cases found with
  | none =>
    rw [Elected] at helected
    rw [helected] at hversion
    cases hversion
  | some r => exact ⟨r, rfl, hts.trans (helected.2.2 k hversion)⟩

theorem Fan.Answers.records {s : Fan} {addr : PartitionAddress} {answer : ReadAnswer}
    (h : s.Answers d o acts addr answer) (hc : Coordinating o s)
    (hs : DistinctlyStamped addr.address (s.run d o acts).fleet.issued) (ha : addr.Encodable)
    {preferences : List Preference} {n : Nat} {reply : ReadReply}
    (he : ReadElection preferences n answer reply) {q : Record} (hq : some q ∈ reply.answers.map Prod.snd) :
    q ∈ (s.run d o acts).fleet.issued ∧ Storable q ∧ q.key.partitionAddress = addr := by
  obtain ⟨⟨source, found⟩, hin, rfl⟩ := mem_map.mp hq
  obtain ⟨f', hmoment⟩ := h.moment hc (he.collected _ hin).1
  exact hmoment.answer hs ha

theorem quorums_intersect {s : SimplePlacementStrategy} {t : Topology} {alive : String → Bool}
    (hlist : s.preferenceList t alive addr = .ok list) (hready : AllReady list.preferences)
    (hf : f.Initial) (before : List FleetAction) {w : Int}
    (hbegin : beginWrite (f.run d before) node list addr value tombstone w = .ok (o, fan))
    (acts later : List FanAction) {arrivals : List (List Nat)} {version : Option Version}
    (hwrite : acknowledge o.record (writeTargets list.preferences) w (fan.run d o acts).outcome
      arrivals = .ok version) (hstamps : DistinctlyStamped addr ((fan.run d o acts).run d o later).fleet.issued)
    {answer : ReadAnswer}
    (hanswers : (fan.run d o acts).Answers d o later ⟨list.placement.pid, addr⟩ answer) {r : Int}
    {responses : List (List String)} {reply : ReadReply}
    (hread : getVersion list.preferences r answer responses = .ok reply)
    (hquorum : (list.preferences.length : Int) < r + w) :
    ∃ v elected, version = some v ∧ reply.elected = some elected ∧ v.metadata.ts ≤ elected.metadata.ts ∧
      (reply.result = some elected ∨ reply.result = none ∧ ∃ q,
        some q ∈ reply.answers.map Prod.snd ∧ versionFromRecord q = elected ∧ q.tag.kind = .tombstone) := by
  have hbegun := begun_of_beginWrite (hf.consistent.run before) hbegin
  have hreturned := hbegun.coordinating.run (d := d) acts
  have hpositive := positive_of_beginWrite hbegin
  have helection := read_election hread
  obtain ⟨copies, hcard, hcopies⟩ := hbegun.copies (SimplePlacementStrategy.wellPlaced hlist) hwrite
  obtain ⟨n, hn, found, hfound⟩ := hready.meet (fun n hn => (hcopies n hn).1) helection (by omega)
  obtain ⟨_, pre, ⟨rest, rfl⟩, hstored⟩ := hcopies n hn
  have hpre := hbegun.coordinating.run (d := d) pre
  have hreaches := hpre.reaches (d := d) rest ⟨_, hstored, hbegun.address, le_rfl⟩
  rw [← Fan.run_append] at hreaches
  have ha : PartitionAddress.Encodable ⟨list.placement.pid, addr⟩ :=
    hbegun.address ▸ ((hpre.consistent.ledger n _).encodable_of_held hstored).partitionAddress
  have hgroup : o.group d = d.partitioner.groupFor list.placement.pid :=
    congrArg (fun a : PartitionAddress => d.partitioner.groupFor a.pid) hbegun.address
  rw [hgroup] at hreaches
  obtain ⟨f', hmoment⟩ := hanswers.moment hreturned (helection.collected _ hfound).1
  obtain ⟨q, rfl, hts⟩ := hmoment.fresh hstamps ha hreaches
  have hknown {q : Record} (hq : some q ∈ reply.answers.map Prod.snd) :=
    hanswers.records hreturned hstamps ha helection hq
  have hq : some q ∈ reply.answers.map Prod.snd := mem_map_of_mem hfound
  have hvisible := mem_visibleVersions.mpr ⟨q, hq, (hknown hq).2.1.owned, rfl⟩
  obtain ⟨elected, helected, hwins⟩ : ∃ elected, reply.elected = some elected ∧
      Wins (visibleVersions (reply.answers.map Prod.snd)) elected := by
    have hsame := helection.unordered _ fun _ => Iff.rfl
    rcases selectVersion_cases (visibleVersions (reply.answers.map Prod.snd)) with
      ⟨_, hnil⟩ | ⟨elected, hsel, hwins⟩
    · rw [hnil] at hvisible
      cases hvisible
    · rw [hsel] at hsame
      exact ⟨elected, hsame.symm, hwins⟩
  refine ⟨_, elected, hbegun.version hpositive hwrite, helected,
    hts.trans (ts_le_of_rank_le (hwins.greatest _ hvisible)), ?_⟩
  cases hresult : reply.result with
  | some v =>
    rw [helection.returned v hresult] at helected
    exact .inl helected
  | none =>
    refine .inr ⟨rfl, ?_⟩
    rcases helection.absent.mp hresult with hnil | ⟨v, hv, q', hq', hstamp, htombstone⟩
    · rw [hnil] at hvisible
      cases hvisible
    · obtain rfl : v = elected := Option.some.inj (hv.symm.trans helected)
      obtain ⟨q₀, hq₀, _, rfl⟩ := mem_visibleVersions.mp hwins.mem
      obtain ⟨hin, _, haddr⟩ := hknown hq'
      obtain ⟨hin₀, _, haddr₀⟩ := hknown hq₀
      have hsame : q' = q₀ := hstamps.apart q' hin q₀ hin₀ (congrArg address haddr)
        (congrArg address haddr₀) (congrArg HLCTimestamp.wallMs hstamp)
        (congrArg HLCTimestamp.counter hstamp)
      exact ⟨q', hq', hsame ▸ rfl, htombstone⟩

end Intersection

namespace Sample

def onlyB : ReadAnswer := fun source =>
  if source = "b" then .ok (some putRecord) else .error (.raised "unreachable")

theorem put_read_back : ∃ reply ∈ (getVersion readyList.preferences 1 onlyB [["b"]]).toOption,
    ∃ elected, reply.elected = some elected ∧ firstKey.ts ≤ elected.metadata.ts ∧ reply.result = some elected := by
  have hwrite : acknowledge putRecord (writeTargets readyList.preferences) 2
      (put.run deployment ⟨"a", putRecord⟩ bothServe).outcome [[1], [0]] =
        .ok (some (versionFromRecord putRecord)) := by
    decide +kernel
  have hstamps : DistinctlyStamped ⟨[1], [2]⟩
      ((put.run deployment ⟨"a", putRecord⟩ bothServe).run deployment ⟨"a", putRecord⟩ []).fleet.issued :=
    ⟨by decide +kernel, by decide +kernel⟩
  have hnewest : ((put.run deployment ⟨"a", putRecord⟩ bothServe).fleet.storage "b" 0).newest
      ⟨0, ⟨[1], [2]⟩⟩ = .ok (some putRecord) := by
    decide +kernel
  have hanswers : (put.run deployment ⟨"a", putRecord⟩ bothServe).Answers deployment
      ⟨"a", putRecord⟩ [] ⟨0, ⟨[1], [2]⟩⟩ onlyB := by
    intro n found hn
    unfold onlyB at hn
    split at hn
    · rename_i hb
      cases hn
      subst hb
      exact .now hnewest
    · cases hn
  have hready : AllReady readyList.preferences := by unfold AllReady; decide
  have hread : ((getVersion readyList.preferences 1 onlyB [["b"]]).toOption.map fun reply =>
      reply.result) = some (some (versionFromRecord putRecord)) := by decide +kernel
  obtain ⟨reply, hreply, hresult⟩ := Option.map_eq_some_iff.mp hread
  obtain ⟨v, elected, hv, helected, hts, hcases⟩ := quorums_intersect readyList_placed hready
    sites_initial _ put_begun bothServe [] hwrite hstamps hanswers (mem_toOption.mp hreply) (by decide)
  cases hv
  refine ⟨reply, hreply, elected, helected, hts, hcases.resolve_right ?_⟩
  rw [hresult]
  nofun

end Sample

end Tourillon
