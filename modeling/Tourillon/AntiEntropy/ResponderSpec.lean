import Tourillon.AntiEntropy.TransferSpec

namespace Tourillon

open Endian Exceptional Prog Protocol Sequence DigestCell Responder

variable {a b : DigestCell} {pid : Nat} {start stop : Bytes}

theorem DigestCell.encode_inj (ha : a.Encodable) (hb : b.Encodable) (h : a.encode = b.encode) : a = b := by
  have hd := fromBytes_encode ha
  rw [h, fromBytes_encode hb] at hd
  exact (Except.ok.inj hd).symm

theorem DigestCell.toBytes_inj {raw : Bytes} (ha : a.toBytes = .ok raw) (hb : b.toBytes = .ok raw) : a = b := by
  obtain ⟨henc, rfl⟩ := toBytes_eq_ok.mp ha
  obtain ⟨henc', heq⟩ := toBytes_eq_ok.mp hb
  exact encode_inj henc henc' heq

theorem Scope.pid_eq_ok {scope : Scope} (h : scope.pid = .ok pid) : scope.pids = [pid] := by
  unfold Scope.pid at h
  split at h
  · rename_i p hp
    cases h
    exact hp
  · cases h

theorem bounds_eq_ok (h : bounds pid start stop = .ok ()) :
    pid < 256 ^ pidSize ∧ toBE pidSize pid <+: start ∧ start < stop := by
  simp only [bounds, bind_eq_ok, intToBytes_eq_ok, refuse_eq_ok, not_or, not_not, not_le,
    Bool.and_eq_true, List.isPrefixOf_iff_prefix] at h
  obtain ⟨_, ⟨hp, rfl⟩, ⟨⟨hs, _⟩, hlt⟩, _⟩ := h
  exact ⟨hp, hs, hlt⟩

theorem length_of_bounds (h : bounds pid start stop = .ok ()) : pidSize ≤ start.length := by
  have hle := (bounds_eq_ok h).2.1.length_le
  rwa [length_toBE] at hle

theorem decode_encode {cells : List (Nat × DigestCell)} {encoded : List (Nat × Bytes)}
    (h : (cells.mapM fun (bucket, cell) => do
      let bytes ← cell.toBytes
      return (bucket, bytes)) = .ok encoded) : PeerSync.decodeCells encoded = .ok cells := by
  rw [mapM_eq_ok] at h
  rw [PeerSync.decodeCells, mapM_eq_ok]
  refine List.Forall₂.flip (List.Forall₂.imp ?_ h)
  rintro ⟨bucket, cell⟩ ⟨bucket', bytes⟩ hb
  simp only [bind_eq_ok, toBytes_eq_ok, pure_eq_ok, Prod.mk.injEq] at hb
  obtain ⟨_, ⟨henc, rfl⟩, rfl, rfl⟩ := hb
  simp only [flip, bind_eq_ok, pure_eq_ok, fromBytes_encode henc]
  exact ⟨cell, rfl, rfl⟩

namespace Setting

variable [Blake2b] {S : Setting} {A : World → Prop} {scope : Scope} {pid : Nat} {node : String}
  {start stop : Bytes}

theorem peer_end : S.s.peer = S.s.self ∨ S.s.peer = S.s.peer := .inr rfl

theorem self_end : S.s.self = S.s.self ∨ S.s.self = S.s.peer := .inl rfl

theorem spec_admitScope {write : Bool} : S.protocol.Spec A (admitScope S.c node scope write) fun _ => A :=
  Spec.bind (Spec.get (Q := fun _ => A) fun _ _ h => h) fun _ => Spec.lift fun _ _ _ h _ => h

theorem spec_rpc {α : Type} {handler : Ae α} {Q : α → World → Prop} (hA : S.protocol.Stable A)
    (hQ : ∀ a, S.protocol.Stable (Q a)) (h : S.protocol.Spec A handler Q) :
    S.protocol.Spec A (S.s.rpc S.c handler) Q := by
  refine Spec.bind (Spec.get (Q := fun _ => A) fun _ _ hw => hw) fun w => ?_
  refine Spec.bind Spec.guard fun _ => ?_
  refine Spec.bind (spec_transit hA) fun _ => ?_
  refine Spec.bind h fun a => ?_
  refine Spec.bind (spec_transit (hQ a)) fun _ => ?_
  exact Spec.ret fun _ _ hw => hw

theorem spec_passing {α : Type} {r : Except PyError α} :
    S.protocol.Spec A (Cluster.python r) fun _ _ => True := spec_python.post fun _ _ _ _ => trivial

theorem stable_true : S.protocol.Stable fun _ => True := Stable.const _

def RootsAnswered (S : Setting) (pids : List Nat) (cells : List Bytes) (diffs : List (Nat × Bytes))
    (w : World) : Prop :=
  ∀ theirs, (S.key.pid, theirs) ∈ pids.zip cells → S.key.pid ∈ diffs.map Prod.fst ∨
    ∃ cell : DigestCell, (cell.Encodable ∧ theirs = cell.encode) ∧ S.CellSeen S.s.peer cell w

theorem stable_rootsAnswered {pids : List Nat} {cells : List Bytes} {diffs : List (Nat × Bytes)} :
    S.protocol.Stable (S.RootsAnswered pids cells diffs) :=
  Stable.forall fun _ => ((Stable.const _).or
    (Stable.exists fun _ => (Stable.const _).and (stable_cellSeen _ _))).imp

theorem spec_handleRoots (scope : Scope) (cells : List Bytes) :
    S.protocol.Spec (fun _ => True) (roots S.c S.s.peer scope cells) (S.RootsAnswered scope.pids cells) := by
  refine Spec.bind spec_passing fun _ => ?_
  refine Spec.bind Spec.guard fun _ => ?_
  refine Spec.bind spec_admitScope fun _ => ?_
  refine Spec.bind (spec_roots peer_end scope.pids) fun mine => ?_
  refine spec_python.post ?_
  rintro diffs w _ ⟨hmine, hdiffs⟩ theirs hzip
  obtain ⟨o, ho, hout⟩ := mem_filterMapM hdiffs hzip
  dsimp only at ho
  cases hl : mine.lookup S.key.pid with
  | none =>
    rw [hl] at ho
    cases ho
  | some cell =>
    rw [hl] at ho
    simp only [bind_eq_ok, toBytes_eq_ok, pure_eq_ok] at ho
    obtain ⟨_, ⟨henc, rfl⟩, ho⟩ := ho
    by_cases heq : cell.encode = theirs
    · exact .inr ⟨cell, ⟨henc, heq.symm⟩, hmine.2 _ (mem_of_lookup_eq_some hl) rfl⟩
    · rw [if_pos heq] at ho
      exact .inl (List.mem_map.mpr ⟨_, hout _ ho.symm, rfl⟩)

def BucketsAnswered (S : Setting) (pid : Nat) (after : Option Nat)
    (r : List (Nat × Bytes) × Option Nat) (w : World) : Prop :=
  ∃ cells, (PeerSync.decodeCells r.1 = .ok cells ∧ ∀ e ∈ cells, ∀ b ∈ r.2, e.1 ≤ b) ∧
    S.BucketSeen S.s.peer pid after r.2 cells w

theorem stable_bucketsAnswered {after : Option Nat} {r : List (Nat × Bytes) × Option Nat} :
    S.protocol.Stable (S.BucketsAnswered pid after r) :=
  Stable.exists fun _ => (Stable.const _).and stable_bucketSeen

theorem spec_handleBuckets (hs : scope.pids = [pid]) (after : Option Nat) (limit : Nat) :
    S.protocol.Spec (fun _ => True) (buckets S.c S.s.peer scope after limit) (S.BucketsAnswered pid after) := by
  refine Spec.bind spec_passing fun _ => ?_
  refine Spec.bind spec_python fun pid' => ?_
  refine Spec.bind (M := fun _ _ => pid' = pid) (spec_python.post ?_) fun limit' => ?_
  · rintro _ w _ ⟨⟨_, hp⟩, _⟩
    rw [Scope.pid_eq_ok hp] at hs
    simpa using hs
  · refine Spec.bind spec_admitScope fun _ => ?_
    refine Spec.seq (Stable.const _) (spec_bucketPage peer_end pid' after limit').anywhere ?_
    rintro ⟨cells, cursor⟩
    refine Spec.bind spec_python fun encoded => Spec.ret ?_
    rintro w _ ⟨⟨rfl, hids, hseen⟩, henc⟩
    exact ⟨cells, ⟨decode_encode henc, hids.upto⟩, hseen⟩

def RangeAnswered (S : Setting) (start stop raw : Bytes) (w : World) : Prop :=
  ∃ cell, fromBytes raw = .ok cell ∧ S.RangeSeen S.s.peer start stop cell w

theorem stable_rangeSeen {cell : DigestCell} :
    S.protocol.Stable (S.RangeSeen node start stop cell) := (stable_cellSeen _ _).imp

theorem stable_rangeAnswered {raw : Bytes} : S.protocol.Stable (S.RangeAnswered start stop raw) :=
  Stable.exists fun _ => (Stable.const _).and stable_rangeSeen

theorem spec_handleRange (start stop : Bytes) :
    S.protocol.Spec (fun _ => True) (range S.c S.s.peer scope start stop) (S.RangeAnswered start stop) := by
  refine Spec.bind spec_passing fun _ => ?_
  refine Spec.bind spec_passing fun pid => ?_
  refine Spec.bind spec_python fun u => ?_
  refine Spec.bind spec_admitScope fun _ => ?_
  by_cases hb : bounds pid start stop = .ok ()
  · refine Spec.bind (spec_rangeDigest peer_end (length_of_bounds hb) stop).anywhere fun cell => ?_
    refine spec_python.post ?_
    rintro raw w _ ⟨hseen, hraw⟩
    obtain ⟨henc, rfl⟩ := toBytes_eq_ok.mp hraw
    exact ⟨cell, fromBytes_encode henc, hseen⟩
  · intro w _ h
    exact absurd h.2 hb

def KeysAnswered (S : Setting) (start stop : Bytes) (r : List Bytes × Option Bytes) (w : World) :
    Prop :=
  ∃ ks : List Key, r.1 = ks.map (Key.encode .tags) ∧ S.KeysSeen S.s.peer start stop (ks, r.2) w

theorem stable_keysAnswered {a b : Bytes} {r : List Bytes × Option Bytes} :
    S.protocol.Stable (S.KeysAnswered a b r) :=
  Stable.exists fun _ => (Stable.const _).and stable_keysSeen

theorem spec_handleKeys (start stop : Bytes) (limit : Nat) :
    S.protocol.Spec (fun _ => True) (keys S.c S.s.peer scope start stop limit) (S.KeysAnswered start stop) := by
  refine Spec.bind spec_passing fun _ => ?_
  refine Spec.bind spec_passing fun pid => ?_
  refine Spec.bind spec_python fun u => ?_
  by_cases hb : bounds pid start stop = .ok ()
  · refine Spec.bind spec_passing fun limit' => ?_
    refine Spec.bind spec_admitScope fun _ => ?_
    refine Spec.bind (spec_keys peer_end (length_of_bounds hb) stop limit') ?_
    rintro ⟨ks, cursor⟩
    refine Spec.bind spec_python fun raw => Spec.ret ?_
    rintro w _ ⟨hseen, hraw⟩
    exact ⟨ks, mapM_ok_eq_map (fun q _ b hq => (Key.toBytes_tags_eq_ok.mp hq).2) hraw, hseen⟩
  · intro w _ h
    exact absurd h.2 hb

def FetchAnswered (S : Setting) (pid : Nat) (raw : List Bytes) (r : List Record × Nat) (w : World) :
    Prop :=
  ∃ keys, raw.mapM (Key.fromBytes .tags) = .ok keys ∧ S.Supplied S.s.peer pid keys r w

theorem stable_fetchAnswered {raw : List Bytes} {r : List Record × Nat} :
    S.protocol.Stable (S.FetchAnswered pid raw r) :=
  Stable.exists fun _ => (Stable.const _).and stable_supplied

theorem spec_handleFetch (hs : scope.pids = [pid]) (raw : List Bytes) (maxBytes : Nat) :
    S.protocol.Spec (fun _ => True) (fetch S.c S.s.peer scope raw maxBytes) (S.FetchAnswered pid raw) := by
  refine Spec.bind spec_passing fun _ => ?_
  refine Spec.bind (M := fun pid' _ => pid' = pid) (spec_python.post ?_) fun pid' => ?_
  · rintro pid' w _ ⟨_, hp⟩
    rw [Scope.pid_eq_ok hp] at hs
    simpa using hs
  · refine Spec.bind (M := fun _ _ => pid' = pid) (spec_python.post fun _ _ _ h => h.1) fun _ => ?_
    refine Spec.bind Spec.guard fun _ => ?_
    refine Spec.bind (M := fun _ _ => pid' = pid ∧ raw ≠ []) (Spec.check fun _ _ h hc => ?_)
      fun _ => ?_
    · exact ⟨h, fun hnil => hc (.inl hnil)⟩
    · refine Spec.bind Spec.guard fun _ => ?_
      refine Spec.bind spec_admitScope fun _ => ?_
      refine Spec.bind spec_python fun keys => ?_
      refine Spec.seq (Stable.const _) (spec_read peer_end pid' keys _).anywhere ?_
      rintro ⟨records, consumed⟩
      refine Spec.ret ?_
      rintro w _ ⟨⟨⟨rfl, hne⟩, hkeys⟩, hsup⟩
      have hlen := (mapM_eq_ok.mp hkeys).length_eq
      have hpos : 1 ≤ consumed := by
        refine hsup.1.2 ?_
        rintro rfl
        exact hne (List.eq_nil_of_length_eq_zero hlen)
      rw [max_eq_right hpos]
      exact ⟨keys, hkeys, hsup⟩

theorem spec_handlePush (hs : scope.pids = [pid]) (hrep : S.s.view.isReplica pid S.s.peer = true)
    {records : List Record} (hr : ∀ r ∈ records, CleanRecord r ∧ r.key.pid = pid) :
    S.protocol.Spec (S.Covers S.s.peer records) (pushResult S.c S.s.peer scope records)
      fun _ w => S.Sent S.s.peer records w := by
  have hfilter : records.filter Record.owned = records :=
    List.filter_eq_self.mpr fun r hrm => (hr r hrm).1.owned
  refine Spec.bind (spec_python.post fun _ _ _ h => h.1) fun _ => ?_
  refine Spec.bind (M := fun pid' w => S.Covers S.s.peer records w ∧ pid' = pid)
    (spec_python.post ?_) fun pid' => ?_
  · rintro pid' w _ ⟨hc, hp⟩
    rw [Scope.pid_eq_ok hp] at hs
    exact ⟨hc, by simpa using hs⟩
  · refine Spec.bind Spec.guard fun _ => ?_
    refine Spec.bind Spec.guard fun _ => ?_
    refine Spec.bind spec_admitScope fun _ => ?_
    rw [hfilter]
    intro w hw h
    obtain ⟨hc, rfl⟩ := h
    exact spec_applyResult peer_end hrep hr w hw hc

end Setting

end Tourillon
