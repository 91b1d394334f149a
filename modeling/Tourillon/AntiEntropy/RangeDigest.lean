import Tourillon.AntiEntropy.Reconcile
import Tourillon.AntiEntropy.Undisturbed
import Tourillon.Storage.RangeScan

namespace Tourillon

open Endian Exceptional Prog LocalStore DigestCell List SessionCall Transaction Yields

structure Cluster.Steady (c : Cluster) (node : String) (group : Nat) : Prop where
  step : ∀ n sh, (c.env.step n sh).storage node group = sh.storage node group

def Stores (node : String) (group : Nat) (g : GroupStorage) (w : World) : Prop :=
  w.shared.storage node group = g

def Returns {α : Type} (x : Ae α) (w : World) (a : α) : Prop := ∃ w', x w = (.ok a, w')

section Yield

variable {c : Cluster} {node : String} {group : Nat} {g : GroupStorage}

theorem Cluster.Steady.undisturbed (h : c.Steady node group) : Undisturbed c (Stores node group g) where
  step w hw := (h.step w.tick w.shared).trans hw
  fold _ _ hw := hw

theorem returns_of_yields {α : Type} {I : World → Prop} {x : Ae α} {a : α}
    (h : Yields I x fun b => b = a) {w : World} (hw : I w) : Returns x w a := by
  obtain ⟨b, w', hrun, _, rfl⟩ := h w hw
  exact ⟨w', hrun⟩

theorem take_of_common_pid {pid : Nat} {bound : Bytes} (h : toBE pidSize pid <+: bound) :
    bound.take pidSize = toBE pidSize pid ∧ pidSize ≤ bound.length := by
  obtain ⟨rest, rfl⟩ := h
  constructor
  · exact take_left' (length_toBE ..)
  · rw [length_append, length_toBE]
    exact Nat.le_add_right ..

theorem groupOf_of_pid_prefix {pid : Nat} (hpid : pid < 256 ^ pidSize) {bound : Bytes}
    (h : toBE pidSize pid <+: bound) : groupOf c bound = c.groupFor pid := by
  rw [groupOf, show (4 : Nat) = pidSize from rfl, (take_of_common_pid h).1, ofBE_toBE hpid]

theorem bucketBounds_ok {k : Key} (hk : k.Encodable) (hwall : k.ts.wallMs < 2 ^ 64 - 2 ^ 22) :
    ∃ bounds, bucketBounds k.pid (k.ts.wallMs >>> 22) = .ok bounds := by
  have hhigh : (k.ts.wallMs >>> 22 + 1) <<< bucketShift < 256 ^ 8 := by
    rw [show bucketShift = 22 from rfl, Nat.shiftLeft_eq, Nat.shiftRight_eq_div_pow]
    have hdiv := Nat.div_mul_le_self k.ts.wallMs (2 ^ 22)
    omega
  have hlow := (shiftLeft_le_succ (k.ts.wallMs >>> 22)).trans_lt hhigh
  refine ⟨(wallBound k.pid ((k.ts.wallMs >>> 22) <<< bucketShift),
    wallBound k.pid ((k.ts.wallMs >>> 22 + 1) <<< bucketShift)), ?_⟩
  simp only [bucketBounds, bind_eq_ok, intToBytes_eq_ok, pure_eq_ok]
  exact ⟨_, ⟨hk.1, rfl⟩, _, ⟨hlow, rfl⟩, _, ⟨hhigh, rfl⟩, rfl⟩

end Yield

section Fold

variable [Blake2b] {start stop : Bytes}

def foldCell (es : List (Bytes × Bytes)) : DigestCell := ((es.filterMap ownedKey).map of).sum

theorem foldCell_append (es es' : List (Bytes × Bytes)) : foldCell (es ++ es') = foldCell es + foldCell es' := by
  rw [foldCell, filterMap_append, map_append, sum_append, foldCell, foldCell]

theorem foldl_foldCell (es : List (Bytes × Bytes)) (cell : DigestCell) :
    (es.filterMap ownedKey).foldl (fun cell key => cell + of key) cell = cell + foldCell es :=
  Setting.foldl_of_eq _ cell

theorem Legible.foldCell_filter {g : GroupStorage} (h : Legible g) (p : Bytes → Bool) :
    foldCell (g.tags.entries.filter fun e => p e.1) =
      ofKeys (g.ownedVersions.filter fun k => p (k.encode .tags)) := by
  have hcommute : (g.tags.entries.filter fun e => p e.1).filterMap ownedKey =
      (g.tags.entries.filterMap ownedKey).filter fun k => p (k.encode .tags) := by
    rw [filterMap_filter, filter_filterMap]
    refine filterMap_congr ?_
    intro e he
    cases hk : ownedKey e with
    | none => simp
    | some k =>
      have hkey : k.encode .tags = e.1 := by
        obtain ⟨q, hq, hqe⟩ := h.keyed e he
        obtain ⟨t, ht⟩ := h.readable e he
        rw [ownedKey, ht, hqe, Key.fromBytes_tags_encode hq] at hk
        dsimp only at hk
        split at hk
        · rw [← Option.some.inj hk, hqe]
        · cases hk
      by_cases hp : p e.1 = true
      · simp [Option.filter, hkey, hp]
      · simp [Option.filter, hkey, hp]
  rw [foldCell, hcommute, ofKeys_eq_sum, h.ownedVersions_eq, map_map]
  rfl

variable {c : Cluster} {node : String} {g : GroupStorage}

theorem yields_rangeDigest {I : World → Prop} (hI : Undisturbed c I) {pre : Bytes}
    (hstored : ∀ w, I w → Stores node (groupOf c start) g w) (hpre : start.take pidSize = pre)
    (hlen : pidSize ≤ start.length) (hstop : pre <+: stop) (hfuel : g.tags.entries.length < c.fuel) :
    Yields I (rangeDigest c node start stop) fun cell => cell = foldCell (g.between start stop) := by
  have hread {cursor : Bytes} {r : List Key × Option Bytes} (hpage : g.ownedKeys cursor stop scanPage = .ok r) :
      Yields I (c.readSession node (groupOf c start) fun g => g.ownedKeys cursor stop scanPage)
        fun a => a = r :=
    hI.readSession fun w hw => ⟨r, by rw [hstored w hw, hpage], rfl⟩
  refine iterate (J := fun b => (b.2.2.take pidSize = pre ∧ pidSize ≤ b.2.2.length) ∧
    b.1 + foldCell (g.between b.2.2 stop) = foldCell (g.between start stop))
    (fun b => (g.between b.2.2 stop).length) ?_ ⟨⟨hpre, hlen⟩, zero_add _⟩ ?_
  · rintro ⟨cell, folded, cursor⟩ ⟨⟨hcursor, hlong⟩, htotal⟩
    dsimp only at hcursor hlong htotal
    rcases g.ownedKeys_between (show 1 ≤ scanPage by decide) hcursor hstop with hpage | hpage
    · apply bind (hread hpage)
      rintro _ rfl
      apply bind hI.interfere
      intro _ _
      apply bind (hI.noteFolds _)
      intro _ _
      apply ret
      show _ = _
      rw [foldl_foldCell, htotal]
    · obtain ⟨head, b, hne, hsplit, hb, _, hpage⟩ := hpage
      apply bind (hread hpage)
      rintro _ rfl
      apply bind hI.interfere
      intro _ _
      apply ret
      refine ⟨⟨?_, ?_⟩, ?_⟩
      · rw [← hcursor]
        exact take_pid_of_prefix hlong (hcursor ▸ hb)
      · dsimp only
        rw [foldl_foldCell, add_assoc, ← foldCell_append, ← hsplit, htotal]
      · dsimp only
        rw [hsplit, length_append]
        have hpos := length_pos_iff.mpr hne
        omega
  · exact (length_filter_le _ _).trans_lt hfuel

theorem returns_rangeDigest {pid : Nat} (hpid : pid < 256 ^ pidSize)
    (hsteady : c.Steady node (c.groupFor pid)) (hfuel : g.tags.entries.length < c.fuel) {w : World}
    (hstored : Stores node (c.groupFor pid) g w) (hstart : toBE pidSize pid <+: start)
    (hstop : toBE pidSize pid <+: stop) :
    Returns (rangeDigest c node start stop) w (foldCell (g.between start stop)) := by
  obtain ⟨htake, hlen⟩ := take_of_common_pid hstart
  have hgroup := groupOf_of_pid_prefix (c := c) hpid hstart
  refine returns_of_yields (yields_rangeDigest hsteady.undisturbed ?_ htake hlen hstop hfuel) hstored
  intro w hw
  rw [hgroup]
  exact hw

theorem Legible.foldCell_between (h : Legible g) (start stop : Bytes) : foldCell (g.between start stop) = ofKeys
      (g.ownedVersions.filter fun k => start < k.encode .tags ∧ k.encode .tags < stop) :=
  h.foldCell_filter fun b => start < b ∧ b < stop

theorem foldAt_bucket (h : Legible g) {pid bucket : Nat} (hbounds : bucketBounds pid bucket = .ok (start, stop)) :
    foldAt g.tags (bucketRef pid bucket) = foldCell (g.between start stop) := by
  obtain ⟨hpid, hhigh, rfl, rfl⟩ := bucketBounds_eq_ok hbounds
  have hlow := (shiftLeft_le_succ bucket).trans_lt hhigh
  have hbucket : bucket < 256 ^ bucketBytes := by
    refine lt_of_le_of_lt ?_ hlow
    rw [Nat.shiftLeft_eq]
    exact Nat.le_mul_of_pos_right _ (by positivity)
  rw [foldAt_eq_ofKeys h.keyed, h.foldCell_between]
  congr 1
  refine filter_congr ?_
  intro k hk
  have hkey := encodable_of_mem_ownedVersions h.keyed hk
  rw [decide_eq_decide, mem_cellRefs_bucket hkey hpid hbucket]
  constructor
  · rintro ⟨rfl, rfl⟩
    rw [wallBound_lt_encode hkey hlow, encode_lt_wallBound hkey hhigh, ← bucketOf_lt_iff, ← not_lt,
      ← bucketOf_lt_iff]
    exact ⟨lt_irrefl _, Nat.lt_succ_self _⟩
  · rintro ⟨habove, hbelow⟩
    have hprefix : toBE pidSize pid <+: k.encode .tags :=
      prefix_of_between (prefix_append ..) (prefix_append ..) habove.le hbelow.le
    obtain rfl := (pid_prefix_iff hkey hpid).mp hprefix
    rw [wallBound_lt_encode hkey hlow, ← not_lt, ← bucketOf_lt_iff] at habove
    rw [encode_lt_wallBound hkey hhigh, ← bucketOf_lt_iff] at hbelow
    exact ⟨rfl, by omega⟩

structure RangesExact (c : Cluster) (node : String) (g : GroupStorage) (w : World) (pid : Nat) : Prop where
  buckets : ∀ bucket start stop ref, bucketBounds pid bucket = .ok (start, stop) →
    bucketKey pid bucket = .ok ref → ∃ stored, cell (g.get .metadata ref) = .ok stored ∧
      Returns (rangeDigest c node start stop) w stored
  bounded : ∀ k ∈ g.ownedVersions, k.pid = pid → ∃ bounds, bucketBounds pid (k.ts.wallMs >>> 22) = .ok bounds
  ranges : ∀ start stop, toBE pidSize pid <+: start → toBE pidSize pid <+: stop → start < stop →
    Returns (rangeDigest c node start stop) w (ofKeys
      (g.ownedVersions.filter fun k => start < k.encode .tags ∧ k.encode .tags < stop))
  splits : ∀ start mid stop, toBE pidSize pid <+: start → toBE pidSize pid <+: stop →
    start < mid → mid < stop → ∃ whole left right,
      Returns (rangeDigest c node start stop) w whole ∧
      Returns (rangeDigest c node start mid) w left ∧
      Returns (rangeDigest c node mid stop) w right ∧
      whole = left + ofKeys (g.ownedVersions.filter fun k => k.encode .tags = mid) + right ∧
      ((∀ k ∈ g.ownedVersions, k.encode .tags ≠ mid) → whole = left + right)

theorem range_digests_match_cells {ts : List (Transaction SessionCall)}
    (hreadable : ∀ t ∈ ts, ∀ call ∈ t.calls, ∀ r ∈ call.records, r.tag.Readable)
    (hwall : ∀ k ∈ (runAll run ts .empty).ownedVersions, k.ts.wallMs < 2 ^ 64 - 2 ^ 22)
    {pid : Nat} (hpid : pid < 256 ^ pidSize) (hsteady : c.Steady node (c.groupFor pid)) {w : World}
    (hstored : Stores node (c.groupFor pid) (runAll run ts .empty) w)
    (hfuel : (runAll run ts .empty).tags.entries.length < c.fuel) :
    RangesExact c node (runAll run ts .empty) w pid := by
  have hlegible := legible_invariant.runAll hreadable legible_empty
  have hexact := digestExact_runAll ts digestExact_empty
  generalize runAll run ts .empty = g at *
  have hreturns {start stop : Bytes} (hstart : toBE pidSize pid <+: start) (hstop : toBE pidSize pid <+: stop) :
      Returns (rangeDigest c node start stop) w (foldCell (g.between start stop)) :=
    returns_rangeDigest hpid hsteady hfuel hstored hstart hstop
  constructor
  case buckets =>
    intro bucket start stop ref hbounds hkey
    obtain ⟨_, rfl⟩ := bucketKey_eq_ok.mp hkey
    obtain ⟨_, _, hstart, hstop⟩ := bucketBounds_eq_ok hbounds
    refine ⟨_, cell_of_exactAt (hexact.cells _ rfl), ?_⟩
    rw [foldAt_bucket hlegible hbounds]
    exact hreturns (hstart ▸ prefix_append ..) (hstop ▸ prefix_append ..)
  case bounded =>
    rintro k hk rfl
    exact bucketBounds_ok (encodable_of_mem_ownedVersions hlegible.keyed hk) (hwall k hk)
  case ranges =>
    intro start stop hstart hstop _
    rw [← hlegible.foldCell_between]
    exact hreturns hstart hstop
  case splits =>
    intro start mid stop hstart hstop hlow hhigh
    have hmid : toBE pidSize pid <+: mid := prefix_of_between hstart hstop hlow.le hhigh.le
    have hsum : foldCell (g.between start stop) = foldCell (g.between start mid) +
        ofKeys (g.ownedVersions.filter fun k => k.encode .tags = mid) +
          foldCell (g.between mid stop) := by
      rw [g.between_split hlow hhigh, foldCell_append, foldCell_append, ← add_assoc]
      congr 2
      exact hlegible.foldCell_filter fun b => b = mid
    refine ⟨_, _, _, hreturns hstart hstop, hreturns hstart hmid, hreturns hmid hstop, hsum, ?_⟩
    intro habsent
    have hnone : (g.ownedVersions.filter fun k => k.encode .tags = mid) = [] :=
      filter_eq_nil_iff.mpr fun k hk => by simpa using habsent k hk
    rw [hsum, hnone]
    exact congrArg (· + _) (add_zero _)

end Fold

namespace Sample

theorem split_at_stored_key_misses_it : bucketBounds 0 0 = .ok (wallBound 0 0, wallBound 0 (2 ^ 22)) ∧
      Stores "a" 0 (store [version 5]) (only ["b"] "a" 5) ∧ (version 5).key ∈ (store [version 5]).ownedVersions ∧
      ∃ whole left right, Returns (rangeDigest (cluster (still 0)) "a" (wallBound 0 0) (wallBound 0 (2 ^ 22)))
          (only ["b"] "a" 5) whole ∧ Returns (rangeDigest (cluster (still 0)) "a" (wallBound 0 0)
          ((version 5).key.encode .tags)) (only ["b"] "a" 5) left ∧
        Returns (rangeDigest (cluster (still 0)) "a" ((version 5).key.encode .tags)
          (wallBound 0 (2 ^ 22))) (only ["b"] "a" 5) right ∧ whole ≠ left + right := by
  have hreturns {start stop : Bytes} {cell : DigestCell}
      (h : (rangeDigest (cluster (still 0)) "a" start stop (only ["b"] "a" 5)).1.toOption = some cell) :
      Returns (rangeDigest (cluster (still 0)) "a" start stop) (only ["b"] "a" 5) cell :=
    ⟨_, Prod.ext (mem_toOption.mp h) rfl⟩
  refine ⟨by decide +kernel, rfl, by decide +kernel, ⟨1, 0⟩, 0, 0, hreturns ?_, hreturns ?_, hreturns ?_, by decide⟩
  · decide +kernel
  · decide +kernel
  · decide +kernel

theorem stored_bucket_matches_range :
    RangesExact (cluster (still 0)) "a" (store [version 5]) (only ["b"] "a" 5) 0 := by
  refine range_digests_match_cells ?_ ?_ (by decide) ⟨fun _ _ => rfl⟩ rfl ?_
  · intro t ht call hc r hr
    rw [mem_singleton.mp ht] at hc
    rw [mem_singleton.mp hc] at hr
    rw [mem_singleton.mp hr]
    exact fun _ => rfl
  · decide +kernel
  · decide +kernel

end Sample

end Tourillon
