import Tourillon.AntiEntropy.MergeSpec
import Tourillon.Storage.KeyOrder

namespace Tourillon

open Endian Exceptional Prog Protocol PeerSync Key

theorem minCursor_le {a b : Option Bytes} {x : Bytes}
    (hx : ∀ m ∈ minCursor a b, x ≤ m) : (∀ m ∈ a, x ≤ m) ∧ ∀ m ∈ b, x ≤ m := by
  cases a with
  | none =>
    cases b with
    | none => simp
    | some b => exact ⟨by simp, hx⟩
  | some a =>
    cases b with
    | none => exact ⟨hx, by simp⟩
    | some b =>
      have hm := hx (min a b) rfl
      simp only [Option.mem_def, Option.some.injEq, forall_eq']
      exact ⟨hm.trans (min_le_left a b), hm.trans (min_le_right a b)⟩

theorem minCursor_mem {a b : Option Bytes} {m : Bytes} (h : minCursor a b = some m) : m ∈ a ∨ m ∈ b := by
  cases a with
  | none =>
    cases b with
    | none => cases h
    | some b => exact .inr h
  | some a =>
    cases b with
    | none => exact .inl h
    | some b =>
      cases h
      rcases min_choice a b with hm | hm
      · exact .inl (by rw [hm]; rfl)
      · exact .inr (by rw [hm]; rfl)

def boundaryOf (stop : Bytes) : Option Bytes → Bytes
  | none => stop
  | some cursor => cursor ++ [0]

structure InPid (pid : Nat) (cursor : Bytes) : Prop where
  fits : pid < 256 ^ pidSize
  starts : toBE pidSize pid <+: cursor

theorem InPid.take {pid : Nat} {cursor : Bytes} (h : InPid pid cursor) :
    cursor.take pidSize = toBE pidSize pid ∧ pidSize ≤ cursor.length := by
  have hle := h.starts.length_le
  rw [length_toBE] at hle
  refine ⟨?_, hle⟩
  have heq := List.prefix_iff_eq_take.mp h.starts
  rw [length_toBE] at heq
  exact heq.symm

theorem startCursor_cases (saved : Option (Nat × Option Bytes)) (start stop : Bytes) :
    startCursor saved start stop = start ∨ ∃ b raw, saved = some (b, some raw) ∧
      startCursor saved start stop = raw ∧ start ≤ raw ∧ raw < stop := by
  unfold startCursor
  split
  · rename_i b raw
    split
    · rename_i h
      exact .inr ⟨b, raw, rfl, rfl, h.1, h.2⟩
    · exact .inl rfl
  · exact .inl rfl

namespace Setting

variable [Blake2b] {S : Setting} {A : World → Prop} {r : List Key × Option Bytes} {pid bucket : Nat} {w : World}

def Before (S : Setting) (pid bucket : Nat) (w : World) : Prop :=
  S.s.Serves S.toFocus → S.s.Timely S.key → S.key.pid = pid → S.bucket < bucket →
    S.Settled w

theorem stable_before : S.protocol.Stable (S.Before pid bucket) := stable_settled.imp.imp.imp.imp

theorem KeysSeen.keyOf {node : String} {cursor stop : Bytes} (hc : InPid pid cursor)
    (h : S.KeysSeen node cursor stop r w) : ∀ raw ∈ r.1.map (encode .tags), KeyOf pid raw := by
  intro raw hraw
  obtain ⟨q, hq, rfl⟩ := List.mem_map.mp hraw
  obtain ⟨henc, hw, _⟩ := h.1 q hq
  have hp := hw.pid
  rw [hc.take.1] at hp
  exact ⟨q, henc, (pid_prefix_iff henc hc.fits).mp hp, rfl⟩

theorem KeysSeen.seen {node : String} {cursor stop : Bytes} (hc : InPid pid cursor)
    (h : S.KeysSeen node cursor stop r w) (hpid : S.key.pid = pid) (hlo : cursor < S.key.encode .tags)
    (hhi : S.key.encode .tags < stop) (hcur : ∀ b ∈ r.2, S.key.encode .tags ≤ b) :
    S.Seen node (S.key.encode .tags ∈ r.1.map (encode .tags)) w := by
  have hw : Within (cursor.take pidSize) cursor stop S.key := by
    refine ⟨?_, hlo, hhi⟩
    rw [hc.take.1]
    exact (pid_prefix_iff S.encodable hc.fits).mpr hpid
  refine (h.2.2.2 hw hcur).congr ⟨fun hm => List.mem_map.mpr ⟨_, hm, rfl⟩, ?_⟩
  intro hm
  obtain ⟨q, hq, hqe⟩ := List.mem_map.mp hm
  exact encode_tags_inj (h.1 q hq).1 S.encodable hqe ▸ hq

theorem KeysSeen.cursor {node : String} {cursor stop : Bytes} (hc : InPid pid cursor)
    (h : S.KeysSeen node cursor stop r w) {b : Bytes} (hb : b ∈ r.2) : InPid pid b ∧ cursor < b ∧ b < stop := by
  obtain ⟨q, hq, rfl⟩ := h.2.1 b hb
  obtain ⟨_, hw, _⟩ := h.1 q hq
  have hp := hw.pid
  rw [hc.take.1] at hp
  exact ⟨⟨hc.fits, hp⟩, hw.above, hw.below⟩

theorem window_of_keys {cursor stop : Bytes} (hc : InPid pid cursor) {theirs own : List Key}
    {theirCursor ownCursor : Option Bytes} (ht : S.KeysSeen S.s.peer cursor stop (theirs, theirCursor) w)
    (hown : S.KeysSeen S.s.self cursor stop (own, ownCursor) w) :
    S.Window ⟨pid, cursor, boundaryOf stop (minCursor theirCursor ownCursor),
      own.map (encode .tags), theirs.map (encode .tags)⟩ w := by
  intro hpid hlo hhi
  have hfacts : (∀ m ∈ minCursor theirCursor ownCursor, S.key.encode .tags ≤ m) ∧
      S.key.encode .tags < stop := by
    cases hm : minCursor theirCursor ownCursor with
    | none =>
      rw [hm] at hhi
      exact ⟨by simp, hhi⟩
    | some m =>
      rw [hm] at hhi
      have hle := lt_append_zero_iff.mp hhi
      refine ⟨fun m' hm' => by cases hm'; exact hle, lt_of_le_of_lt hle ?_⟩
      rcases minCursor_mem hm with hmem | hmem
      · exact (ht.cursor hc hmem).2.2
      · exact (hown.cursor hc hmem).2.2
  obtain ⟨htl, hol⟩ := minCursor_le hfacts.1
  exact ⟨hown.seen hc hpid hlo hfacts.2 hol, ht.seen hc hpid hlo hfacts.2 htl⟩

structure RangeOf (S : Setting) (pid bucket : Nat) (start stop : Bytes) : Prop where
  inPid : InPid pid start
  numbered : ofBE ((start.drop pidSize).take 8) >>> bucketShift = bucket
  early : S.Early pid bucket start
  settles : S.key.encode .tags ≤ start → S.key.pid = pid → S.bucket < bucket
  late : S.s.Timely S.key → S.key.pid = pid → S.bucket ≤ bucket → S.key.encode .tags < stop

def Resumed (S : Setting) (pid : Nat) (saved : Option (Nat × Option Bytes)) (w : World) : Prop :=
  ∀ pos, saved = some pos → S.s.Serves S.toFocus → S.s.Timely S.key → S.key.pid = pid →
    Passed pos S.key → S.Settled w

theorem spec_position (pid : Nat) :
    S.protocol.Spec A (S.s.position pid) fun saved w => A w ∧ S.Resumed pid saved w := by
  apply Spec.bind (Spec.get (Q := fun w w' => A w' ∧ w = w') fun _ _ h => ⟨h, rfl⟩)
  intro w
  apply Spec.ret
  rintro w' hw' ⟨h, rfl⟩
  refine ⟨h, ?_⟩
  rintro pos hpos hserve htime rfl hpass
  exact hw'.2.imp (fun hhonest => hhonest hserve htime pos hpos hpass) id

theorem done_startCursor {start stop : Bytes} (hr : S.RangeOf pid bucket start stop)
    (hstop : toBE pidSize pid <+: stop) {saved : Option (Nat × Option Bytes)} (hb : S.Before pid bucket w)
    (hs : S.Resumed pid saved w) : (InPid pid (startCursor saved start stop) ∧
      start ≤ startCursor saved start stop) ∧ S.Done pid (startCursor saved start stop) w := by
  have hstart : S.Done pid start w := by
    intro hserve htime hpid hle
    exact hb hserve htime hpid (hr.settles hle hpid)
  rcases startCursor_cases saved start stop with heq | ⟨b, raw, rfl, heq, hlo, hhi⟩
  · rw [heq]
    exact ⟨⟨hr.inPid, le_refl _⟩, hstart⟩
  · rw [heq]
    refine ⟨⟨⟨hr.inPid.fits, prefix_of_between hr.inPid.starts hstop hlo hhi.le⟩, hlo⟩, ?_⟩
    intro hserve htime hpid hle
    exact hs _ rfl hserve htime hpid (.inr ⟨raw, rfl, hle⟩)

theorem spec_finishPage {scope : Scope} (hs : scope.pids = [pid]) {start stop cursor : Bytes}
    (hr : S.RangeOf pid bucket start stop) (hle : start ≤ cursor) {next : Option Bytes}
    (hnext : ∀ m ∈ next, InPid pid m ∧ cursor < m) {mine theirs : List Bytes}
    (hraws : ∀ raw ∈ mine ++ theirs, KeyOf pid raw) :
    S.protocol.Spec (S.Viewed ⟨pid, cursor, boundaryOf stop next, mine, theirs⟩) (do
        S.s.mergePage S.c scope pid bucket (boundaryOf stop next) mine theirs
        match next with
        | none => do
          S.s.setPosition pid (some (bucket + 1, none))
          pure (.inr ())
        | some cursor => do
          S.s.setPosition pid (some (bucket, some cursor))
          pure (.inl cursor) : Ae (Bytes ⊕ Unit))
      fun r w => r.elim (fun cursor => (InPid pid cursor ∧ start ≤ cursor) ∧ S.Done pid cursor w)
        fun _ => S.Before pid (bucket + 1) w := by
  have hearly : S.Early pid bucket cursor := fun hpid hb => (hr.early hpid hb).trans hle
  apply Spec.bind (spec_mergePage (p := ⟨pid, cursor, boundaryOf stop next, mine, theirs⟩) hs hearly hraws)
  intro _
  have hstable : S.protocol.Stable fun w => ∀ b, b < boundaryOf stop next → S.Done pid b w :=
    Stable.forall fun _ => stable_done.imp
  cases next with
  | none =>
    have hbefore (w : World) (h : ∀ b, b < stop → S.Done pid b w) :
        S.Before pid (bucket + 1) w := by
      intro hserve htime hpid hlt
      exact h _ (hr.late htime hpid (by omega)) hserve htime hpid (le_refl _)
    apply Spec.bind (spec_setPosition hstable ?_)
    · intro _
      exact Spec.ret fun w _ h => hbefore w h
    · intro w h hserve htime hpid pos hpos hpass
      cases hpos
      rcases hpass with hlt | ⟨b, hb, _⟩
      · exact hbefore w h hserve htime hpid hlt
      · cases hb
  | some m =>
    obtain ⟨hm, hlt⟩ := hnext m rfl
    have hdone (w : World) (h : ∀ b, b < m ++ [0] → S.Done pid b w) : S.Done pid m w :=
      h m (lt_append_zero_iff.mpr (le_refl m))
    apply Spec.bind (spec_setPosition hstable ?_)
    · intro _
      exact Spec.ret fun w _ h => ⟨⟨hm, hle.trans hlt.le⟩, hdone w h⟩
    · intro w h hserve htime hpid pos hpos hpass
      cases hpos
      rcases hpass with hb | ⟨b, hb, hkb⟩
      · exact hdone w h hserve htime hpid ((hearly hpid hb).trans hlt.le)
      · cases hb
        exact hdone w h hserve htime hpid hkb

theorem spec_syncRange {scope : Scope} (hs : scope.pids = [pid]) {start stop : Bytes}
    (hr : S.RangeOf pid bucket start stop) (hstop : toBE pidSize pid <+: stop) :
    S.protocol.Spec (S.Before pid bucket) (S.s.syncRange S.c scope pid start stop)
      fun _ => S.Before pid (bucket + 1) := by
  apply Spec.bind (spec_position pid)
  intro saved
  dsimp only
  rw [hr.numbered]
  refine (Spec.iterate (I := fun cursor w => (InPid pid cursor ∧ start ≤ cursor) ∧
    S.Done pid cursor w) ?_ _ _).pre fun w _ h => done_startCursor hr hstop h.1 h.2
  intro cursor
  have hstable : S.protocol.Stable fun w => (InPid pid cursor ∧ start ≤ cursor) ∧
    S.Done pid cursor w := (Stable.const _).and stable_done
  apply Spec.bind (Spec.get (Q := fun _ w => (InPid pid cursor ∧ start ≤ cursor) ∧
    S.Done pid cursor w) fun _ _ h => h)
  intro w₀
  apply Spec.bind Spec.guard
  intro _
  refine Spec.assume (p := InPid pid cursor ∧ start ≤ cursor) (fun _ _ h => h.1) fun ⟨hc, hle⟩ => ?_
  apply Spec.seq hstable (spec_rpc hstable (fun _ => stable_keysAnswered) (spec_handleKeys cursor stop _).anywhere)
  rintro ⟨theirs, theirCursor⟩
  have hanswered := hstable.and
    (stable_keysAnswered (S := S) (r := (theirs, theirCursor)) (a := cursor) (b := stop))
  apply Spec.seq hanswered (spec_keys self_end hc.take.2 stop _).anywhere
  rintro ⟨own, ownCursor⟩
  apply Spec.bind (spec_spendScan (hanswered.and stable_keysSeen) _)
  intro _
  apply Spec.bind spec_python
  intro mine
  refine Spec.assume (p := (∀ m ∈ minCursor theirCursor ownCursor,
    InPid pid m ∧ cursor < m) ∧ ∀ raw ∈ mine ++ theirs, KeyOf pid raw) ?_ fun ⟨hnext, hraws⟩ => ?_
  · rintro w _ ⟨⟨⟨_, ks, hks, ht⟩, hown⟩, hmine⟩
    obtain rfl : mine = own.map (encode .tags) :=
      mapM_ok_eq_map (fun q _ b hq => (toBytes_tags_eq_ok.mp hq).2) hmine
    refine ⟨?_, ?_⟩
    · intro m hm
      rcases minCursor_mem hm with hmem | hmem
      · exact ⟨(ht.cursor hc hmem).1, (ht.cursor hc hmem).2.1⟩
      · exact ⟨(hown.cursor hc hmem).1, (hown.cursor hc hmem).2.1⟩
    · intro raw hraw
      rcases List.mem_append.mp hraw with hraw | hraw
      · exact hown.keyOf hc raw hraw
      · obtain rfl : theirs = ks.map (encode .tags) := hks
        exact ht.keyOf hc raw hraw
  · refine (spec_finishPage hs hr hle hnext hraws).pre ?_
    rintro w _ ⟨⟨⟨⟨_, hdone⟩, ks, hks, ht⟩, hown⟩, hmine⟩
    obtain rfl : mine = own.map (encode .tags) :=
      mapM_ok_eq_map (fun q _ b hq => (toBytes_tags_eq_ok.mp hq).2) hmine
    obtain rfl : theirs = ks.map (encode .tags) := hks
    exact ⟨window_of_keys hc ht hown, hdone⟩

end Setting

end Tourillon
