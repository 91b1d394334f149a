import Tourillon.Library.Gather
import Tourillon.Store.Election
import Tourillon.Store.Placement
import Mathlib.Data.Finset.Card

namespace Tourillon

open Exceptional List

variable {preferences : List Preference} {targets : ReadTargets} {answer : ReadAnswer}

inductive ReplicaError where
  | raised (message : String)
  | timeout (message : String)
  deriving DecidableEq, Repr

inductive StoreError where
  | invalidQuorum (operation : String) (quorum : Int)
  | noReplicaAvailable (operation : String)
  | operationFailed (operation : String) (errors : List ReplicaError)
  | quorumNotMet (operation : String) (required received : Nat) (errors : List ReplicaError)
      (token : Option String)
  | python (e : PyError)
  deriving DecidableEq, Repr

def maxQuorum : Int := 255

def validateQuorum (operation : String) (quorum : Int) : Except StoreError Unit :=
  if 1 ≤ quorum ∧ quorum ≤ maxQuorum then .ok () else .error (.invalidQuorum operation quorum)

def ensureQuorum (successCount required : Nat) (op : String) (errors : List ReplicaError)
    (token : Option String) : Except StoreError Unit :=
  if successCount < required then .error (.quorumNotMet op required successCount errors token)
  else .ok ()

def envelopeResponseTimeout : String := "30.0"

def unanswered (names : List String) : List ReplicaError :=
  (names.insertionSort (· ≤ ·)).map fun name =>
    .timeout s!"no response from {name} within {envelopeResponseTimeout}s"

def Preference.sources (e : Preference) : List String :=
  (if e.readable then [e.nodeId] else []) ++ e.handoff.toList

abbrev ReadTargets : Type := OrderedMap String (List String)

def replicationTargets (preferences : List Preference) : Except StoreError ReadTargets :=
  let targets := preferences.foldl
    (fun targets e => if e.sources = [] then targets else targets.insert e.nodeId e.sources)
    (∅ : ReadTargets)
  if targets.entries = [] then .error (.noReplicaAvailable "read") else .ok targets

def readResponseCount (targets : ReadTargets) (answers : List (String × Option Record))
    (pending : List String) : Nat :=
  targets.entries.countP fun e =>
    e.2.any (fun source => source ∈ answers.map Prod.fst) && e.2.all (fun source => source ∉ pending)

structure Reads where
  records : List (String × Option Record)
  errors : List ReplicaError
  pending : List String

abbrev ReadAnswer : Type := String → Except ReplicaError (Option Record)

def Reads.collect (answer : ReadAnswer) (done : List String) (s : Reads) : Reads :=
  done.foldl (fun s target =>
    let pending := s.pending.filter fun source => source ≠ target
    match answer target with
    | .ok found => ⟨s.records ++ [(target, found)], s.errors, pending⟩
    | .error e => ⟨s.records, s.errors ++ [e], pending⟩) s

def ReadTargets.sources (targets : ReadTargets) : List String :=
  (targets.entries.flatMap Prod.snd).dedup.insertionSort (· ≤ ·)

def collectReads (targets : ReadTargets) (quorum : Nat) (answer : ReadAnswer)
    (arrivals : List (List String)) : Gather.Outcome String Reads :=
  Gather.gather (Reads.collect answer)
    (fun s => decide (quorum ≤ readResponseCount targets s.records s.pending)) arrivals
    targets.sources ⟨[], [], targets.sources⟩

def readErrors (out : Gather.Outcome String Reads) : List ReplicaError :=
  out.state.errors ++ if out.expired then unanswered out.running else []

structure ReadReply where
  result : Option Version
  elected : Option Version
  answers : List (String × Option Record)
  running : List String
  expired : Bool

def getVersion (preferences : List Preference) (quorum : Int) (answer : ReadAnswer)
    (arrivals : List (List String)) : Except StoreError ReadReply := do
  validateQuorum "read" quorum
  let targets ← replicationTargets preferences
  let out := collectReads targets quorum.toNat answer arrivals
  let errors := readErrors out
  let records := out.state.records.map Prod.snd
  if records = [] ∧ errors ≠ [] then .error (.operationFailed "read" errors)
  else do
    let (version, _) := selectVersion (visibleVersions records)
    ensureQuorum (readResponseCount targets out.state.records []) quorum.toNat "read" errors none
    return ⟨if isTombstone version records then none else version, version, out.state.records,
      out.running, out.expired⟩

theorem mem_replicationTargets (h : replicationTargets preferences = .ok targets) {e : String × List String}
    (he : e ∈ targets.entries) : ∃ p ∈ preferences, p.nodeId = e.1 ∧ p.sources = e.2 := by
  have hfold (l : List Preference) (start : ReadTargets)
      (hstart : ∀ d ∈ start.entries, ∃ p ∈ preferences, p.nodeId = d.1 ∧ p.sources = d.2)
      (hl : ∀ p ∈ l, p ∈ preferences) : ∀ d ∈ (l.foldl (fun targets p =>
        if p.sources = [] then targets else targets.insert p.nodeId p.sources) start).entries,
        ∃ p ∈ preferences, p.nodeId = d.1 ∧ p.sources = d.2 := by
    induction l generalizing start with
    | nil => exact hstart
    | cons p l ih =>
      refine ih _ ?_ fun q hq => hl q (mem_cons_of_mem _ hq)
      intro d hd
      dsimp only at hd
      split at hd
      · exact hstart d hd
      · rw [← OrderedMap.get_eq_some, OrderedMap.get_insert] at hd
        split at hd
        · rename_i heq
          exact ⟨p, hl p mem_cons_self, heq.symm, Option.some.inj hd⟩
        · exact hstart d (OrderedMap.get_eq_some.mp hd)
  unfold replicationTargets at h
  dsimp only at h
  split at h
  · cases h
  · cases h
    exact hfold preferences ∅ nofun (fun _ hp => hp) e he

structure Settled (answer : ReadAnswer) (running : List String) (s : Reads) : Prop where
  pending : ∀ t, t ∈ s.pending ↔ t ∈ running
  answered : ∀ e ∈ s.records, answer e.1 = .ok e.2 ∧ e.1 ∉ running

theorem Settled.collect (done : List String) {running : List String} {s : Reads} (h : Settled answer running s) :
    Settled answer (running.filter fun t => t ∉ done) (Reads.collect answer done s) := by
  unfold Reads.collect
  induction done generalizing running s with
  | nil => simpa using h
  | cons target done ih =>
    have hsplit : running.filter (fun t => t ∉ target :: done) =
        (running.filter fun t => t ≠ target).filter fun t => t ∉ done := by
      rw [filter_filter]
      refine filter_congr ?_
      intro t _
      simp [Bool.and_comm]
    rw [hsplit, foldl_cons]
    apply ih
    have hpending (t : String) : t ∈ s.pending.filter (fun source => source ≠ target) ↔
        t ∈ running.filter fun t => t ≠ target := by
      simp [h.pending t]
    have hbefore (e : String × Option Record) (he : e ∈ s.records) :
        answer e.1 = .ok e.2 ∧ e.1 ∉ running.filter fun t => t ≠ target :=
      ⟨(h.answered e he).1, fun hin => (h.answered e he).2 (mem_of_mem_filter hin)⟩
    cases hanswer : answer target with
    | error e => exact ⟨hpending, hbefore⟩
    | ok found =>
      refine ⟨hpending, ?_⟩
      intro e he
      rcases mem_append.mp he with he | he
      · exact hbefore e he
      · rw [mem_singleton.mp he]
        exact ⟨hanswer, by simp⟩

theorem settled_collectReads (targets : ReadTargets) (quorum : Nat) (answer : ReadAnswer)
    (arrivals : List (List String)) : Settled answer (collectReads targets quorum answer arrivals).running
      (collectReads targets quorum answer arrivals).state :=
  Gather.gather_inv (fun _ _ done h _ _ => h.collect done) arrivals ⟨fun _ => Iff.rfl, nofun⟩

theorem responding_owners (h : replicationTargets preferences = .ok targets)
    {answers : List (String × Option Record)} {pending : List String} {quorum : Nat}
    (hq : quorum ≤ readResponseCount targets answers pending) :
    ∃ owners : Finset String, quorum ≤ owners.card ∧ ∀ o ∈ owners, ∃ e ∈ preferences,
      e.nodeId = o ∧ (∀ source ∈ e.sources, source ∉ pending) ∧
        ∃ source ∈ e.sources, ∃ found, (source, found) ∈ answers := by
  rw [readResponseCount, countP_eq_length_filter] at hq
  refine ⟨((targets.entries.filter fun e => e.2.any (fun source => source ∈ answers.map Prod.fst) &&
    e.2.all (fun source => source ∉ pending)).map Prod.fst).toFinset, ?_, ?_⟩
  · rw [toFinset_card_of_nodup (targets.nodup_keys.sublist (filter_sublist.map Prod.fst)), length_map]
    exact hq
  · intro o ho
    obtain ⟨e, he, rfl⟩ := mem_map.mp (mem_toFinset.mp ho)
    obtain ⟨hin, hcond⟩ := mem_filter.mp he
    obtain ⟨p, hp, hnode, hsources⟩ := mem_replicationTargets h hin
    simp only [Bool.and_eq_true, any_eq_true, all_eq_true, decide_eq_true_iff] at hcond
    obtain ⟨⟨source, hsource, hanswer⟩, hsettled⟩ := hcond
    obtain ⟨⟨name, found⟩, hfound, rfl⟩ := mem_map.mp hanswer
    rw [← hsources] at hsource hsettled
    exact ⟨p, hp, hnode, hsettled, name, hsource, found, hfound⟩

structure ReadElection (preferences : List Preference) (quorum : Nat) (answer : ReadAnswer)
    (reply : ReadReply) : Prop where
  collected : ∀ e ∈ reply.answers, answer e.1 = .ok e.2 ∧ e.1 ∉ reply.running
  greatest : ∀ v, reply.elected = some v ↔ Wins (visibleVersions (reply.answers.map Prod.snd)) v
  unordered : ∀ records : List (Option Record), (∀ u, u ∈ visibleVersions records ↔
      u ∈ visibleVersions (reply.answers.map Prod.snd)) →
    (selectVersion (visibleVersions records)).1 = reply.elected
  returned : ∀ v, reply.result = some v → reply.elected = some v
  absent : reply.result = none ↔ visibleVersions (reply.answers.map Prod.snd) = [] ∨
    ∃ v, reply.elected = some v ∧ ∃ r, some r ∈ reply.answers.map Prod.snd ∧
      r.key.ts = v.metadata.ts ∧ r.tag.kind = .tombstone
  answered : ∃ owners : Finset String, quorum ≤ owners.card ∧ ∀ o ∈ owners, ∃ e ∈ preferences,
    e.nodeId = o ∧ ∃ source ∈ e.sources, ∃ found, (source, found) ∈ reply.answers
  settled : reply.running ≠ [] → reply.expired = false →
    ∃ owners : Finset String, quorum ≤ owners.card ∧ ∀ o ∈ owners, ∃ e ∈ preferences,
      e.nodeId = o ∧ (∀ source ∈ e.sources, source ∉ reply.running) ∧
        ∃ source ∈ e.sources, ∃ found, (source, found) ∈ reply.answers

theorem getVersion_cases {quorum : Int} {arrivals : List (List String)} {reply : ReadReply}
    (h : getVersion preferences quorum answer arrivals = .ok reply) :
    ∃ targets, replicationTargets preferences = .ok targets ∧
      reply.answers = (collectReads targets quorum.toNat answer arrivals).state.records ∧
      reply.running = (collectReads targets quorum.toNat answer arrivals).running ∧
      reply.expired = (collectReads targets quorum.toNat answer arrivals).expired ∧
      quorum.toNat ≤ readResponseCount targets reply.answers [] ∧
      reply.elected = (selectVersion (visibleVersions (reply.answers.map Prod.snd))).1 ∧
      reply.result = if isTombstone reply.elected (reply.answers.map Prod.snd) then none
        else reply.elected := by
  simp only [getVersion, bind_eq_ok] at h
  obtain ⟨_, _, targets, htargets, h⟩ := h
  split at h
  · cases h
  · simp only [bind_eq_ok, pure_eq_ok] at h
    obtain ⟨_, hquorum, rfl⟩ := h
    refine ⟨targets, htargets, rfl, rfl, rfl, ?_, rfl, rfl⟩
    unfold ensureQuorum at hquorum
    split at hquorum
    · cases hquorum
    · exact not_lt.mp ‹_›

theorem read_election {preferences : List Preference} {quorum : Int} {answer : ReadAnswer}
    {arrivals : List (List String)} {reply : ReadReply}
    (h : getVersion preferences quorum answer arrivals = .ok reply) :
    ReadElection preferences quorum.toNat answer reply := by
  obtain ⟨targets, htargets, hanswers, hrunning, hexpired, hquorum, helected, hresult⟩ := getVersion_cases h
  have hsettled := settled_collectReads targets quorum.toNat answer arrivals
  rw [← hrunning] at hsettled
  refine ⟨?_, ?_, ?_, ?_, ?_, ?_, ?_⟩
  · rw [hanswers]
    exact hsettled.answered
  · intro v
    rw [helected]
    exact selectVersion_eq_some
  · intro records hsame
    rw [helected]
    exact selectVersion_congr hsame
  · intro v hv
    rw [hresult] at hv
    split at hv
    · cases hv
    · exact hv
  · rw [hresult]
    cases hcase : reply.elected with
    | none =>
      rw [helected, selectVersion_eq_none] at hcase
      simp [isTombstone, hcase]
    | some v =>
      have hsome : visibleVersions (reply.answers.map Prod.snd) ≠ [] := by
        intro hnil
        rw [helected, selectVersion_eq_none.mpr hnil] at hcase
        cases hcase
      simp only [hsome, false_or, Option.some.injEq, exists_eq_left', ← isTombstone_some]
      cases isTombstone (some v) (reply.answers.map Prod.snd) <;> simp
  · obtain ⟨owners, hcard, howners⟩ := responding_owners htargets hquorum
    refine ⟨owners, hcard, ?_⟩
    intro o ho
    obtain ⟨e, he, hnode, _, hsource⟩ := howners o ho
    exact ⟨e, he, hnode, hsource⟩
  · intro hne hlive
    have hstop := Gather.gather_stopped arrivals (hrunning ▸ hne) (hexpired ▸ hlive)
    rw [decide_eq_true_iff] at hstop
    obtain ⟨owners, hcard, howners⟩ := responding_owners htargets hstop
    refine ⟨owners, hcard, ?_⟩
    intro o ho
    obtain ⟨e, he, hnode, hquiet, hsource⟩ := howners o ho
    refine ⟨e, he, hnode, ?_, ?_⟩
    · intro source hs hrun
      exact hquiet source hs ((hsettled.pending source).mpr hrun)
    · rw [hanswers]
      exact hsource

namespace Sample

def ownersAB : List Preference := [⟨"a", true, none, true⟩, ⟨"b", false, some "c", false⟩]

def stampedAt (wallMs : Nat) (kind : TagKind) : Record :=
  ⟨⟨⟨0, ⟨[1], [2]⟩, ⟨wallMs, 0, "a", size_a⟩⟩, ⟨kind, {}⟩⟩, ⟨[3], 1, size_three⟩⟩

def answersAC : ReadAnswer := fun source =>
  if source = "a" then .ok (some (stampedAt 5 .live)) else .ok (some (stampedAt 9 .live))

theorem read_elects_newest : ∃ reply ∈ (getVersion ownersAB 2 answersAC [["a"], ["c"]]).toOption,
    ReadElection ownersAB 2 answersAC reply ∧ reply.result = some (versionFromRecord (stampedAt 9 .live)) := by
  have hrun : ((getVersion ownersAB 2 answersAC [["a"], ["c"]]).toOption.map fun reply =>
      reply.result) = some (some (versionFromRecord (stampedAt 9 .live))) := by decide +kernel
  obtain ⟨reply, hreply, hresult⟩ := Option.map_eq_some_iff.mp hrun
  exact ⟨reply, hreply, read_election (mem_toOption.mp hreply), hresult⟩

end Sample

end Tourillon
