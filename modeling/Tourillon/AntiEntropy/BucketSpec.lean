import Tourillon.AntiEntropy.SyncSpec

namespace Tourillon

open Endian Exceptional Prog Protocol PeerSync

theorem intToBytesSigned_eq_ok {n : Int} {width : Nat} {b : Bytes} (h : intToBytesSigned n width = .ok b) :
    0 ≤ n ∧ n.toNat < 256 ^ width ∧ b = toBE width n.toNat := by
  simp only [intToBytesSigned, refuse_eq_ok, intToBytes_eq_ok, not_lt] at h
  exact ⟨h.1, h.2.1, h.2.2⟩

theorem inPid_wallBound {pid : Nat} (hp : pid < 256 ^ pidSize) (n : Nat) :
    InPid pid (wallBound pid n) := ⟨hp, List.prefix_append _ _⟩

namespace Setting

variable [Blake2b] {S : Setting} {pid bucket : Nat} {start full stop : Bytes} {scope : Scope}

theorem rangeOf_bucket (h : bucketBounds pid bucket = .ok (start, full))
    (hlate : S.s.Timely S.key → S.key.pid = pid → S.bucket ≤ bucket → S.key.encode .tags < stop) :
    S.RangeOf pid bucket start stop := by
  obtain ⟨hp, hhi, rfl, rfl⟩ := bucketBounds_eq_ok h
  have hlo : bucket <<< bucketShift < 256 ^ 8 := lt_of_le_of_lt (shiftLeft_le_succ bucket) hhi
  refine ⟨inPid_wallBound hp _, bucket_of_start pid hlo, ?_, ?_, hlate⟩
  · rintro rfl hlt
    exact ((encode_lt_wallBound S.encodable hlo).mpr (bucketOf_lt_iff.mp hlt)).le
  · rintro hle rfl
    refine bucketOf_lt_iff.mpr ?_
    by_contra hge
    exact absurd hle (not_le.mpr ((wallBound_lt_encode S.encodable hlo).mpr (not_lt.mp hge)))

theorem late_full (h : bucketBounds pid bucket = .ok (start, stop)) :
    S.s.Timely S.key → S.key.pid = pid → S.bucket ≤ bucket → S.key.encode .tags < stop := by
  obtain ⟨hp, hhi, rfl, rfl⟩ := bucketBounds_eq_ok h
  rintro _ rfl hle
  exact (encode_lt_wallBound S.encodable hhi).mpr (bucketOf_lt_iff.mp (Nat.lt_succ_of_le hle))

theorem late_horizon {cutoff : Bytes} (h : intToBytesSigned (S.s.cutoffMs + 1) 8 = .ok cutoff) :
    S.s.Timely S.key → S.key.pid = pid → S.bucket ≤ bucket → S.key.encode .tags < toBE pidSize pid ++ cutoff := by
  obtain ⟨hpos, hfit, rfl⟩ := intToBytesSigned_eq_ok h
  rintro htime rfl _
  refine (encode_lt_wallBound S.encodable hfit).mpr ?_
  unfold PeerSync.Timely at htime
  omega

def CellsSeen (S : Setting) (pid bucket : Nat) (theirs mine : DigestCell) (w : World) : Prop :=
  S.s.Serves S.toFocus → S.s.Timely S.key → S.key.pid = pid → S.bucket = bucket →
    (S.CellSeen S.s.peer theirs w ∧ S.CellSeen S.s.self mine w) ∨ S.Settled w

theorem stable_cellsSeen {theirs mine : DigestCell} : S.protocol.Stable (S.CellsSeen pid bucket theirs mine) :=
  (((stable_cellSeen _ _).and (stable_cellSeen _ _)).or stable_settled).imp.imp.imp.imp

theorem Before.succ {w : World} (h : S.Before pid bucket w)
    (heq : S.s.Serves S.toFocus → S.s.Timely S.key → S.key.pid = pid → S.bucket = bucket → S.Settled w) :
    S.Before pid (bucket + 1) w := by
  intro hserve htime hpid hlt
  rcases Nat.lt_or_ge S.bucket bucket with hb | hb
  · exact h hserve htime hpid hb
  · exact heq hserve htime hpid (by omega)

theorem within_bucket (h : bucketBounds pid bucket = .ok (start, full)) (hpid : S.key.pid = pid)
    (hb : S.bucket = bucket) (hstop : S.key.encode .tags < stop) :
    Within (start.take pidSize) start stop S.key := by
  obtain ⟨hp, hhi, rfl, rfl⟩ := bucketBounds_eq_ok h
  have hlo : bucket <<< bucketShift < 256 ^ 8 := lt_of_le_of_lt (shiftLeft_le_succ bucket) hhi
  subst hpid
  refine ⟨?_, (wallBound_lt_encode S.encodable hlo).mpr ?_, hstop⟩
  · rw [(inPid_wallBound hp _).take.1]
    exact (pid_prefix_iff S.encodable hp).mpr rfl
  · have hnot : ¬ bucketOf S.key.ts.wallMs < bucket := by
      rw [← hb]
      exact lt_irrefl _
    rw [bucketOf_lt_iff] at hnot
    exact not_lt.mp hnot

variable (hs : scope.pids = [pid])

include hs

theorem spec_straddle {cutoff : Bytes} (h : bucketBounds pid bucket = .ok (start, full))
    (hcut : intToBytesSigned (S.s.cutoffMs + 1) 8 = .ok cutoff) : S.protocol.Spec (S.Before pid bucket) (do
        let raw ← S.s.rpc S.c (Responder.range S.c S.s.peer scope start (toBE pidSize pid ++ cutoff))
        let remote ← Cluster.python (DigestCell.fromBytes raw)
        let own ← LocalStore.rangeDigest S.c S.s.self start (toBE pidSize pid ++ cutoff)
        if remote ≠ own then S.s.syncRange S.c scope pid start (toBE pidSize pid ++ cutoff)
        else pure () : Ae Unit) fun _ => S.Before pid (bucket + 1) := by
  have hrange := rangeOf_bucket (S := S) h (late_horizon hcut)
  apply Spec.seq stable_before (spec_rpc stable_before (fun _ => stable_rangeAnswered)
    (spec_handleRange start _).anywhere)
  intro raw
  apply Spec.bind spec_python
  intro remote
  have hstable : S.protocol.Stable fun w => (S.Before pid bucket w ∧
      S.RangeAnswered start (toBE pidSize pid ++ cutoff) raw w) ∧
      DigestCell.fromBytes raw = .ok remote :=
    (stable_before.and stable_rangeAnswered).and (Stable.const _)
  apply Spec.seq hstable (spec_rangeDigest self_end hrange.inPid.take.2 _).anywhere
  intro own
  split
  · refine (spec_syncRange hs hrange (List.prefix_append _ _)).pre ?_
    intro w _ hw
    exact hw.1.1.1
  · rename_i heq
    apply Spec.ret
    rintro w _ ⟨⟨⟨hbefore, cell, hcell, hpeer⟩, hremote⟩, hself⟩
    obtain rfl : cell = own := by
      rw [hcell] at hremote
      exact (Except.ok.inj hremote).trans (not_not.mp heq)
    refine hbefore.succ ?_
    intro hserve htime hpid hb
    have hw := within_bucket h hpid hb (late_horizon hcut htime hpid (le_of_eq hb))
    exact (hself hw).settled hserve.1 (hpeer hw)

theorem spec_syncBucket (theirs mine : Option DigestCell) :
    S.protocol.Spec (fun w => S.Before pid bucket w ∧ S.CellsSeen pid bucket (theirs.getD 0) (mine.getD 0) w)
      (S.s.syncBucket S.c scope pid bucket theirs mine) fun _ => S.Before pid (bucket + 1) := by
  apply Spec.bind spec_python
  rintro ⟨start, stop⟩
  refine Spec.assume (p := bucketBounds pid bucket = .ok (start, stop)) (fun _ _ h => h.2)
    fun hbounds => ?_
  dsimp only
  split
  · rename_i heq
    apply Spec.ret
    rintro w _ ⟨⟨hbefore, hcells⟩, _⟩
    refine hbefore.succ ?_
    intro hserve htime hpid hb
    rcases hcells hserve htime hpid hb with ⟨hpeer, hself⟩ | hsettled
    · rw [heq] at hpeer
      exact hself.settled hserve.1 hpeer
    · exact hsettled
  · apply Spec.bind spec_python
    intro pidBytes
    apply Spec.bind spec_python
    intro cutoff
    refine Spec.assume (p := intToBytes pid pidSize = .ok pidBytes ∧
      intToBytesSigned (S.s.cutoffMs + 1) 8 = .ok cutoff) (fun _ _ h => ⟨h.1.2, h.2⟩)
      fun ⟨hpb, hcut⟩ => ?_
    obtain ⟨_, rfl⟩ := intToBytes_eq_ok.mp hpb
    split
    · refine (spec_syncRange hs (rangeOf_bucket hbounds (late_full hbounds)) ?_).pre ?_
      · obtain ⟨_, _, _, rfl⟩ := bucketBounds_eq_ok hbounds
        exact List.prefix_append _ _
      · intro w _ h
        exact h.1.1.1.1
    · refine (spec_straddle hs hbounds hcut).pre ?_
      intro w _ h
      exact h.1.1.1.1

theorem spec_visitBucket (theirs mine : List (Nat × DigestCell)) :
    S.protocol.Spec (fun w => S.Before pid bucket w ∧ S.CellsSeen pid bucket
        ((theirs.lookup bucket).getD 0) ((mine.lookup bucket).getD 0) w)
      (S.s.visitBucket S.c scope pid theirs mine bucket) fun _ => S.Before pid (bucket + 1) := by
  apply Spec.bind (spec_position pid)
  intro saved
  split
  · rename_i hskip
    apply Spec.ret
    rintro w _ ⟨_, hres⟩
    cases saved with
    | none => simp at hskip
    | some pos =>
      intro hserve htime hpid hb
      refine hres pos rfl hserve htime hpid (.inl ?_)
      have hlt : bucket < pos.1 := by simpa using hskip
      exact lt_of_le_of_lt (Nat.le_of_lt_succ hb) hlt
  · apply Spec.bind (M := fun _ w => S.Before pid bucket w ∧ S.CellsSeen pid bucket
      ((theirs.lookup bucket).getD 0) ((mine.lookup bucket).getD 0) w)
    · refine Spec.whenever (fun _ => ?_) fun _ _ h _ => h.1
      refine (spec_setPosition (stable_before.and stable_cellsSeen) ?_).pre fun _ _ h => h.1
      intro w h hserve htime hpid pos hpos hpass
      cases hpos
      rcases hpass with hlt | ⟨b, hb, _⟩
      · exact h.1 hserve htime hpid hlt
      · cases hb
    · intro _
      exact spec_syncBucket hs _ _

end Setting

end Tourillon
