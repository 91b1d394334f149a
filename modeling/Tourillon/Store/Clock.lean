import Tourillon.Storage.VersionOrder

namespace Tourillon

open HLCTimestamp List

variable {t t' : HLCTimestamp} {groups : Groups}

def HLCTimestamp.stamp (t : HLCTimestamp) : ℕ ×ₗ ℕ := toLex (t.wallMs, t.counter)

theorem HLCTimestamp.stamp_le_of_le (h : t ≤ t') : t.stamp ≤ t'.stamp := by
  rw [stamp, stamp, Prod.Lex.toLex_le_toLex]
  rcases h.lt_or_eq with hlt | rfl
  · rcases (lt_iff t t').mp hlt with hw | ⟨hw, hc | ⟨hc, _⟩⟩
    · exact .inl hw
    · exact .inr ⟨hw, hc.le⟩
    · exact .inr ⟨hw, hc.le⟩
  · exact .inr ⟨rfl, le_rfl⟩

theorem HLCTimestamp.lt_of_stamp_lt (h : t.stamp < t'.stamp) : t < t' :=
  lt_of_not_ge fun hle => absurd h (not_lt.mpr (stamp_le_of_le hle))

inductive ClockCall where
  | tick (nowMs : Int)
  | update (remote : HLCTimestamp) (nowMs : Int)
  | restore (ts : HLCTimestamp)

namespace ClockCall

def given : ClockCall → Option HLCTimestamp
  | .tick _ => none
  | .update remote _ => some remote
  | .restore ts => some ts

end ClockCall

structure ClockReply where
  given : Option HLCTimestamp
  returned : Option HLCTimestamp
  deriving DecidableEq

structure HLCClock where
  nodeId : String
  wallMs : Nat
  counter : Nat
  size : (encodeUtf8 nodeId).length ≤ maxNodeIdLenBytes

namespace HLCClock

variable (c : HLCClock) {t t' : HLCTimestamp}

def make (nodeId : String) : Except PyError HLCClock :=
  if h : (encodeUtf8 nodeId).length ≤ maxNodeIdLenBytes then .ok ⟨nodeId, 0, 0, h⟩
  else .error (.valueError s!"node_id must be <= {maxNodeIdLenBytes} bytes (utf-8)")

def snapshot (c : HLCClock) : HLCTimestamp := ⟨c.wallMs, c.counter, c.nodeId, c.size⟩

def advance (c : HLCClock) (nowMs : Int) : HLCClock :=
  if nowMs > c.wallMs then { c with wallMs := nowMs.toNat, counter := 0 }
  else { c with counter := c.counter + 1 }

def tick (c : HLCClock) (nowMs : Int) : HLCTimestamp × HLCClock :=
  ((c.advance nowMs).snapshot, c.advance nowMs)

def restore (c : HLCClock) (wallMs counter : Nat) : HLCClock :=
  if wallMs > c.wallMs then { c with wallMs := wallMs, counter := counter }
  else if wallMs = c.wallMs then { c with counter := max c.counter counter }
  else c

def merge (c : HLCClock) (remote : HLCTimestamp) (nowMs : Int) : HLCClock :=
  let maxWall := max nowMs.toNat (max remote.wallMs c.wallMs)
  let counter :=
    if maxWall = c.wallMs ∧ maxWall = remote.wallMs then max c.counter remote.counter + 1
    else if maxWall = c.wallMs then c.counter + 1
    else if maxWall = remote.wallMs then remote.counter + 1
    else 0
  { c with wallMs := maxWall, counter := counter }

def update (c : HLCClock) (remote : HLCTimestamp) (nowMs : Int) : HLCTimestamp × HLCClock :=
  ((c.merge remote nowMs).snapshot, c.merge remote nowMs)

def call (c : HLCClock) : ClockCall → Option HLCTimestamp × HLCClock
  | .tick nowMs => (some (c.tick nowMs).1, (c.tick nowMs).2)
  | .update remote nowMs => (some (c.update remote nowMs).1, (c.update remote nowMs).2)
  | .restore ts => (none, c.restore ts.wallMs ts.counter)

def transcript (c : HLCClock) : List ClockCall → List ClockReply
  | [] => []
  | a :: calls => ⟨a.given, (c.call a).1⟩ :: (c.call a).2.transcript calls

theorem stamp_lt_iff :
    t.stamp < t'.stamp ↔ t.wallMs < t'.wallMs ∨ t.wallMs = t'.wallMs ∧ t.counter < t'.counter := by
  rw [stamp, stamp, Prod.Lex.toLex_lt_toLex]

theorem stamp_le_iff :
    t.stamp ≤ t'.stamp ↔ t.wallMs < t'.wallMs ∨ t.wallMs = t'.wallMs ∧ t.counter ≤ t'.counter := by
  rw [stamp, stamp, Prod.Lex.toLex_le_toLex]

theorem advance_stamp (nowMs : Int) : c.snapshot.stamp < (c.advance nowMs).snapshot.stamp := by
  rw [stamp_lt_iff]
  unfold advance
  split
  · left
    simp only [snapshot]
    omega
  · exact .inr ⟨rfl, Nat.lt_succ_self _⟩

theorem advance_wallMs_le (nowMs : Int) : nowMs ≤ (c.advance nowMs).wallMs := by
  unfold advance
  split
  · exact Int.self_le_toNat nowMs
  · simpa using ‹¬ nowMs > c.wallMs›

theorem merge_stamp (remote : HLCTimestamp) (nowMs : Int) :
    c.snapshot.stamp < (c.merge remote nowMs).snapshot.stamp ∧
      remote.stamp < (c.merge remote nowMs).snapshot.stamp := by
  simp only [stamp_lt_iff, merge, snapshot]
  constructor
  · split_ifs <;> omega
  · split_ifs <;> omega

theorem restore_stamp (latest : HLCTimestamp) :
    latest.stamp ≤ (c.restore latest.wallMs latest.counter).snapshot.stamp := by
  rw [stamp_le_iff]
  unfold restore
  split_ifs with hgt heq
  · exact .inr ⟨rfl, le_rfl⟩
  · exact .inr ⟨heq, le_max_right _ _⟩
  · left
    simp only [snapshot]
    omega

theorem restore_le (c : HLCClock) (ts : HLCTimestamp) :
    c.snapshot.stamp ≤ (c.restore ts.wallMs ts.counter).snapshot.stamp := by
  rw [stamp_le_iff]
  unfold restore
  split_ifs with hgt heq
  · exact .inl hgt
  · exact .inr ⟨rfl, le_max_left _ _⟩
  · exact .inr ⟨rfl, le_rfl⟩

theorem call_returned (c : HLCClock) (a : ClockCall) :
    ∀ t ∈ (c.call a).1, c.snapshot.stamp < t.stamp ∧ (c.call a).2.snapshot = t ∧
      ∀ r ∈ a.given, r.stamp < t.stamp := by
  cases a with
  | tick nowMs =>
    rintro _ ⟨⟩
    exact ⟨c.advance_stamp nowMs, rfl, nofun⟩
  | update remote nowMs =>
    rintro _ ⟨⟩
    refine ⟨(c.merge_stamp remote nowMs).1, rfl, ?_⟩
    rintro _ ⟨⟩
    exact (c.merge_stamp remote nowMs).2
  | restore ts => nofun

theorem call_advances (c : HLCClock) (a : ClockCall) : c.snapshot.stamp ≤ (c.call a).2.snapshot.stamp ∧
      ∀ r ∈ a.given, r.stamp ≤ (c.call a).2.snapshot.stamp := by
  cases a with
  | tick nowMs => exact ⟨(c.advance_stamp nowMs).le, nofun⟩
  | update remote nowMs =>
    refine ⟨(c.merge_stamp remote nowMs).1.le, ?_⟩
    rintro _ ⟨⟩
    exact (c.merge_stamp remote nowMs).2.le
  | restore ts =>
    refine ⟨c.restore_le ts, ?_⟩
    rintro _ ⟨⟩
    exact c.restore_stamp ts

theorem transcript_after (c : HLCClock) (calls : List ClockCall) :
    ∀ e ∈ c.transcript calls, ∀ t ∈ e.returned, c.snapshot.stamp < t.stamp := by
  induction calls generalizing c with
  | nil => nofun
  | cons a calls ih =>
    intro e he t ht
    rcases mem_cons.mp he with rfl | hrest
    · exact (c.call_returned a t ht).1
    · exact (c.call_advances a).1.trans_lt (ih (c.call a).2 e hrest t ht)

end HLCClock

abbrev Groups := Nat → GroupStorage

def lastTag (g : GroupStorage) : Except PyError (Option HLCTimestamp) :=
  match g.list .tags none none 1 true with
  | [] => .ok none
  | kv :: _ => do
    let key ← Key.fromBytes .tags kv.1
    return some key.ts

def epochStart : HLCTimestamp := ⟨0, 0, "", size_empty⟩

def later (latest : HLCTimestamp) : Option HLCTimestamp → HLCTimestamp
  | none => latest
  | some ts => if ts > latest then ts else latest

def Groups.latestHlc (groups : Groups) (totalGroups : Nat) : Except PyError HLCTimestamp :=
  (range totalGroups).foldlM (fun latest group => do
    let found ← lastTag (groups group)
    return later latest found) epochStart

theorem le_later (latest : HLCTimestamp) (found : Option HLCTimestamp) :
    latest ≤ later latest found ∧ ∀ ts ∈ found, ts ≤ later latest found := by
  cases found with
  | none => exact ⟨le_rfl, nofun⟩
  | some ts =>
    simp only [later, Option.mem_def, Option.some.injEq, forall_eq']
    split
    · rename_i h
      exact ⟨h.le, le_rfl⟩
    · rename_i h
      exact ⟨le_rfl, not_lt.mp h⟩

theorem later_cases (latest : HLCTimestamp) (found : Option HLCTimestamp) :
    later latest found = latest ∨ later latest found ∈ found := by
  cases found with
  | none => exact .inl rfl
  | some ts =>
    simp only [later, Option.mem_def, Option.some.injEq]
    split
    · exact .inr rfl
    · exact .inl rfl

theorem epochStart_le (ts : HLCTimestamp) : epochStart ≤ ts := by
  refine not_lt.mp fun hlt => ?_
  rcases (lt_iff ts epochStart).mp hlt with hwall | ⟨_, hcounter | ⟨_, hnode⟩⟩
  · exact Nat.not_lt_zero _ hwall
  · exact Nat.not_lt_zero _ hcounter
  · rw [← encodeUtf8_lt_iff] at hnode
    exact not_lt_nil _ hnode

def GroupStorage.LastTag (g : GroupStorage) (last : Key) : Prop :=
  last ∈ g.held ∧ ∀ k ∈ g.held, k.encode .tags ≤ last.encode .tags

instance (g : GroupStorage) (last : Key) : Decidable (g.LastTag last) := inferInstanceAs (Decidable (_ ∧ _))

def Groups.LatestLast (groups : Groups) (totalGroups : Nat) : Prop :=
  ∀ group < totalGroups, ∀ k ∈ (groups group).held,
    ∃ group' < totalGroups, ∃ last ∈ (groups group').held, (groups group').LastTag last ∧ k.ts ≤ last.ts

theorem lastTag_cases {g : GroupStorage} (hg : Sound g) :
    (lastTag g = .ok none ∧ g.held = ∅) ∨ ∃ last, g.LastTag last ∧ lastTag g = .ok (some last.ts) := by
  have hlist : g.list .tags none none 1 true = g.tags.entries.reverse.take 1 := by
    have hall : g.tags.entries.reverse.takeWhile (fun e => GroupStorage.startsWith none e.1) =
        g.tags.entries.reverse := takeWhile_eq_self_iff.mpr fun _ _ => rfl
    exact congrArg (take 1) hall
  have hentry {k : Key} (hk : k ∈ g.held) : ∃ raw, (k.encode .tags, raw) ∈ g.tags.entries.reverse := by
    obtain ⟨_, raw, hraw, _⟩ := (mem_held hg.tagKeys).mp hk
    exact ⟨raw, mem_reverse.mpr (OrderedMap.get_eq_some.mp hraw)⟩
  rw [lastTag, hlist]
  cases hentries : g.tags.entries.reverse with
  | nil =>
    refine .inl ⟨rfl, Finset.eq_empty_of_forall_notMem fun k hk => ?_⟩
    obtain ⟨raw, hmem⟩ := hentry hk
    rw [hentries] at hmem
    cases hmem
  | cons e es =>
    have hin : e ∈ g.tags.entries := mem_reverse.mp (hentries ▸ mem_cons_self ..)
    obtain ⟨last, hlast, hdec, hkey⟩ := ownedKey_eq_some hg hin
    have hread : Key.fromBytes .tags e.1 = .ok last :=
      hkey ▸ Key.fromBytes_tags_encode (hg.encodable_of_held hlast)
    refine .inr ⟨last, ⟨hlast, fun k hk => ?_⟩, ?_⟩
    · obtain ⟨raw, hmem⟩ := hentry hk
      have hdesc : g.tags.entries.reverse.Pairwise fun a b => b.1 < a.1 := pairwise_reverse.mpr g.tags.sorted
      rw [hentries] at hmem hdesc
      rw [← hkey]
      rcases mem_cons.mp hmem with heq | htail
      · exact (congrArg Prod.fst heq).le
      · exact ((pairwise_cons.mp hdesc).1 _ htail).le
    · simp only [take_succ_cons, hread]
      rfl

theorem latestHlc_from (ids : List Nat) (start : HLCTimestamp) (hg : ∀ group ∈ ids, Sound (groups group)) :
    ∃ latest, ids.foldlM (fun latest group => do
        let found ← lastTag (groups group)
        return later latest found) start = Except.ok latest ∧ start ≤ latest ∧
      (∀ group ∈ ids, ∀ last, (groups group).LastTag last → last.ts ≤ latest) ∧
      (latest = start ∨ ∃ group ∈ ids, ∃ last, (groups group).LastTag last ∧ latest = last.ts) := by
  induction ids generalizing start with
  | nil => exact ⟨start, rfl, le_rfl, nofun, .inl rfl⟩
  | cons group ids ih =>
    obtain ⟨found, hfound, hlasts⟩ : ∃ found, lastTag (groups group) = .ok found ∧
        ∀ ts, ts ∈ found ↔ ∃ last, (groups group).LastTag last ∧ ts = last.ts := by
      rcases lastTag_cases (hg group mem_cons_self) with ⟨hnone, hempty⟩ | ⟨last, hlast, hsome⟩
      · refine ⟨none, hnone, fun ts => ⟨nofun, ?_⟩⟩
        rintro ⟨last, ⟨hheld, _⟩, _⟩
        rw [hempty] at hheld
        cases hheld
      · refine ⟨some last.ts, hsome, fun ts => ⟨fun hts => ⟨last, hlast, (Option.some.inj hts).symm⟩, ?_⟩⟩
        rintro ⟨last', hlast', rfl⟩
        have hsound := hg group mem_cons_self
        rw [Key.encode_tags_inj (hsound.encodable_of_held hlast.1) (hsound.encodable_of_held hlast'.1)
          (le_antisymm (hlast'.2 _ hlast.1) (hlast.2 _ hlast'.1))]
        rfl
    obtain ⟨hstart, hlater⟩ := le_later start found
    obtain ⟨latest, hlatest, hle, hrest, hfrom⟩ := ih (later start found)
      fun g' hg' => hg g' (mem_cons_of_mem _ hg')
    refine ⟨latest, ?_, hstart.trans hle, ?_, ?_⟩
    · rw [foldlM_cons, hfound]
      exact hlatest
    · intro g' hg' last hlast
      rcases mem_cons.mp hg' with rfl | hin
      · exact (hlater _ ((hlasts _).mpr ⟨last, hlast, rfl⟩)).trans hle
      · exact hrest g' hin last hlast
    · rcases hfrom with hsame | ⟨g', hg', hlast⟩
      · rcases later_cases start found with heq | hts
        · exact .inl (hsame.trans heq)
        · exact .inr ⟨group, mem_cons_self .., hsame ▸ (hlasts _).mp hts⟩
      · exact .inr ⟨g', mem_cons_of_mem _ hg', hlast⟩

theorem latestHlc_covers {totalGroups : Nat} (hg : ∀ group < totalGroups, Sound (groups group)) :
    ∃ latest, groups.latestHlc totalGroups = .ok latest ∧
      ((∀ group < totalGroups, ∀ k ∈ (groups group).held, k.ts ≤ latest) ↔ groups.LatestLast totalGroups) := by
  obtain ⟨latest, hlatest, _, hlasts, hfrom⟩ := latestHlc_from (range totalGroups) epochStart
    fun group hm => hg group (mem_range.mp hm)
  refine ⟨latest, hlatest, ?_, ?_⟩
  · intro hall group hm k hk
    rcases hfrom with hstart | ⟨group', hm', last, hlast, hts⟩
    · rcases lastTag_cases (hg group hm) with ⟨_, hempty⟩ | ⟨last, hlast, _⟩
      · rw [hempty] at hk
        cases hk
      · exact ⟨group, hm, last, hlast.1, hlast, (hall group hm k hk).trans (hstart ▸ epochStart_le last.ts)⟩
    · exact ⟨group', mem_range.mp hm', last, hlast.1, hlast, hts ▸ hall group hm k hk⟩
  · intro hlatestLast group hm k hk
    obtain ⟨group', hm', last, _, hlast, hle⟩ := hlatestLast group hm k hk
    exact hle.trans (hlasts group' (mem_range.mpr hm') last hlast)

namespace Sample

def stampedIn (pid : Nat) (ts : HLCTimestamp) : Record := { stamped ts with key := ⟨pid, ⟨[1], [2]⟩, ts⟩ }

def oneGroup (records : List Record) : Groups := fun group =>
  if group = 0 then records.foldl GroupStorage.addVersion .empty else .empty

def earlier : HLCTimestamp := ⟨5, 0, "a", size_a⟩

def latest : HLCTimestamp := ⟨9, 0, "a", size_a⟩

def stoppedClock : HLCClock := ⟨"a", 0, 0, size_a⟩

theorem oneGroup_sound {records : List Record} (h : ∀ r ∈ records, CleanRecord r) (group : Nat) :
    Sound (oneGroup records group) := by
  unfold oneGroup
  split
  · exact sound_empty.addVersions h
  · exact sound_empty

end Sample

end Tourillon
