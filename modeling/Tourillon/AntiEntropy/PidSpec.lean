import Tourillon.AntiEntropy.BucketSpec

namespace Tourillon

open Exceptional Prog Protocol Sequence List

variable {s : PeerSync} {k : Key} {b : Nat}

theorem bucket_shift_eq (wallMs : Nat) : ((bucketOf wallMs : Nat) : Int) = (wallMs : Int) / 2 ^ bucketShift := by
  rw [bucketOf_eq]
  push_cast
  rfl

theorem cutoffBucket_eq (s : PeerSync) : s.cutoffBucket = s.cutoffMs / 2 ^ bucketShift :=
  Int.shiftRight_eq_div_pow ..

theorem bucket_le_cutoff (h : s.Timely k) : (bucketOf k.ts.wallMs : Int) ≤ s.cutoffBucket := by
  rw [bucket_shift_eq, cutoffBucket_eq]
  exact Int.ediv_le_ediv (by positivity) h

theorem cutoff_le_bucket (h : ¬ s.Timely k) : s.cutoffBucket ≤ (bucketOf k.ts.wallMs : Int) := by
  rw [bucket_shift_eq, cutoffBucket_eq]
  refine Int.ediv_le_ediv (by positivity) ?_
  unfold PeerSync.Timely at h
  omega

def bucketIds (theirs mine : List (Nat × DigestCell)) : List Nat :=
  ((theirs ++ mine).map Prod.fst).eraseDups.insertionSort (· ≤ ·)

theorem mem_bucketIds {theirs mine : List (Nat × DigestCell)} :
    b ∈ bucketIds theirs mine ↔ b ∈ theirs.map Prod.fst ∨ b ∈ mine.map Prod.fst := by
  rw [bucketIds, mem_insertionSort, mem_eraseDups, map_append, mem_append]

theorem bucketIds_strict (theirs mine : List (Nat × DigestCell)) : (bucketIds theirs mine).Pairwise (· < ·) := by
  have hn : (bucketIds theirs mine).Nodup := (perm_insertionSort (· ≤ ·) _).nodup_iff.mpr (nodup_eraseDups _)
  have hs := pairwise_insertionSort (· ≤ ·) ((theirs ++ mine).map Prod.fst).eraseDups
  exact (hs.and hn).imp fun h => lt_of_le_of_ne h.1 h.2

theorem lookup_none_of_not_mem {cells : List (Nat × DigestCell)} (h : b ∉ cells.map Prod.fst) :
    cells.lookup b = none := by
  refine lookup_eq_none_of_forall ?_
  intro e he heq
  exact h (heq ▸ mem_map.mpr ⟨e, he, rfl⟩)

namespace Setting

variable [Blake2b] {S : Setting} {A : World → Prop} {v : BucketView} {pid : Nat} {w : World}
  {after : Option Nat} {b : Nat} {scope : Scope}

structure BucketView where
  pid : Nat
  after : Option Nat
  cursor : Option Nat
  theirs : List (Nat × DigestCell)
  mine : List (Nat × DigestCell)

def BothSeen (S : Setting) (v : BucketView) (w : World) : Prop :=
  S.BucketSeen S.s.peer v.pid v.after v.cursor v.theirs w ∧
    S.BucketSeen S.s.self v.pid v.after v.cursor v.mine w

theorem stable_bothSeen : S.protocol.Stable (S.BothSeen v) := stable_bucketSeen.and stable_bucketSeen

def Swept (S : Setting) (pid : Nat) (after : Option Nat) (w : World) : Prop :=
  ∀ a, a ∈ after → S.Before pid (a + 1) w

theorem stable_swept : S.protocol.Stable (S.Swept pid after) := Stable.forall fun _ => stable_before.imp

def Visited (S : Setting) (pid : Nat) (buckets : List Nat) (w : World) : Prop :=
  ∀ b, b ∈ buckets → S.Before pid (b + 1) w

theorem stable_visited {buckets : List Nat} : S.protocol.Stable (S.Visited pid buckets) :=
  Stable.forall fun _ => stable_before.imp

theorem BothSeen.settled_of_absent (h : S.BothSeen v w) (hf : S.s.Faces S.toFocus) (hpid : S.key.pid = v.pid)
    (ha : ∀ a ∈ v.after, a < S.bucket) (hc : ∀ b ∈ v.cursor, S.bucket ≤ b)
    (hn : S.bucket ∉ bucketIds v.theirs v.mine) : S.Settled w := by
  rw [mem_bucketIds, not_or] at hn
  have hpeer := h.1 hpid ha hc
  have hself := h.2 hpid ha hc
  rw [lookup_none_of_not_mem hn.1] at hpeer
  rw [lookup_none_of_not_mem hn.2] at hself
  exact hself.settled hf hpeer

section

variable (hids : ∀ b ∈ bucketIds v.theirs v.mine, ∀ c ∈ v.cursor, b ≤ c)

include hids

theorem before_visit {done rest : List Nat} (hvisit : (bucketIds v.theirs v.mine).takeWhile
      (fun b : Nat => decide ((b : Int) ≤ S.s.cutoffBucket)) = done ++ b :: rest) (hboth : S.BothSeen v w)
    (hswept : S.Swept v.pid v.after w) (hdone : S.Visited v.pid done w) : S.Before v.pid b w := by
  intro hserve htime hpid hlt
  have hstrict := bucketIds_strict v.theirs v.mine
  have hb : b ∈ bucketIds v.theirs v.mine := by
    refine (takeWhile_sublist (fun b : Nat => decide ((b : Int) ≤ S.s.cutoffBucket))).subset ?_
    rw [hvisit]
    simp
  by_cases ha : ∀ a ∈ v.after, a < S.bucket
  · by_cases hin : S.bucket ∈ bucketIds v.theirs v.mine
    · have hwhile : S.bucket ∈ done ++ b :: rest := by
        rw [← hvisit, takeWhile_eq_filter]
        · refine mem_filter.mpr ⟨hin, ?_⟩
          exact decide_eq_true (bucket_le_cutoff htime)
        · refine hstrict.imp ?_
          intro x y hxy hy
          simp only [decide_eq_true_iff] at hy ⊢
          omega
      rcases mem_append.mp hwhile with hd | hd
      · exact hdone _ hd hserve htime hpid (Nat.lt_succ_self _)
      · have hsub : (done ++ b :: rest).Pairwise (· < ·) := by
          rw [← hvisit]
          exact hstrict.sublist (takeWhile_sublist _)
        have htail := (pairwise_append.mp hsub).2.1
        rcases mem_cons.mp hd with heq | hd
        · omega
        · have := (pairwise_cons.mp htail).1 _ hd
          omega
    · refine hboth.settled_of_absent hserve.1 hpid ha ?_ hin
      intro c hc
      exact hlt.le.trans (hids b hb c hc)
  · simp only [not_forall, not_lt, exists_prop] at ha
    obtain ⟨a, hmem, hle⟩ := ha
    exact hswept a hmem hserve htime hpid (Nat.lt_succ_of_le hle)

theorem cells_visit (hb : b ∈ bucketIds v.theirs v.mine) (hboth : S.BothSeen v w)
    (hswept : S.Swept v.pid v.after w) :
    S.CellsSeen v.pid b ((v.theirs.lookup b).getD 0) ((v.mine.lookup b).getD 0) w := by
  rintro hserve htime hpid rfl
  by_cases ha : ∀ a ∈ v.after, a < S.bucket
  · exact .inl ⟨hboth.1 hpid ha (hids _ hb), hboth.2 hpid ha (hids _ hb)⟩
  · simp only [not_forall, not_lt, exists_prop] at ha
    obtain ⟨a, hmem, hle⟩ := ha
    exact .inr (hswept a hmem hserve htime hpid (Nat.lt_succ_of_le hle))

end

theorem spec_visitAll (hs : scope.pids = [v.pid]) (hids : ∀ b ∈ bucketIds v.theirs v.mine, ∀ c ∈ v.cursor, b ≤ c) :
    S.protocol.Spec (fun w => S.BothSeen v w ∧ S.Swept v.pid v.after w) (each ((bucketIds v.theirs v.mine).takeWhile
          fun b : Nat => decide ((b : Int) ≤ S.s.cutoffBucket)) (S.s.visitBucket S.c scope v.pid v.theirs v.mine))
      fun _ w => S.s.Serves S.toFocus → S.s.Timely S.key → S.key.pid = v.pid →
        (∀ c ∈ v.cursor, S.bucket ≤ c) → S.Settled w := by
  obtain ⟨buckets, hbuckets⟩ : ∃ buckets, buckets = (bucketIds v.theirs v.mine).takeWhile
    fun b : Nat => decide ((b : Int) ≤ S.s.cutoffBucket) := ⟨_, rfl⟩
  rw [← hbuckets]
  refine ((Spec.each (fun done w => (S.BothSeen v w ∧ S.Swept v.pid v.after w) ∧
    S.Visited v.pid done w) ?_).pre ?_).post ?_
  · intro done b rest hsplit
    have hvisit := hbuckets.symm.trans hsplit
    have hb : b ∈ bucketIds v.theirs v.mine := by
      have hmem : b ∈ buckets := by
        rw [hsplit]
        exact mem_append_right _ mem_cons_self
      rw [hbuckets] at hmem
      exact (takeWhile_sublist _).subset hmem
    have hstable : S.protocol.Stable fun w => (S.BothSeen v w ∧ S.Swept v.pid v.after w) ∧
        S.Visited v.pid done w := (stable_bothSeen.and stable_swept).and stable_visited
    refine (Spec.keep hstable ((spec_visitBucket hs v.theirs v.mine).pre ?_)).post ?_
    · rintro w _ ⟨⟨hboth, hswept⟩, hdone⟩
      exact ⟨before_visit hids hvisit hboth hswept hdone, cells_visit hids hb hboth hswept⟩
    · rintro _ w _ ⟨⟨hpre, hdone⟩, hbefore⟩
      refine ⟨hpre, ?_⟩
      intro b' hb'
      rcases mem_append.mp hb' with hb' | hb'
      · exact hdone b' hb'
      · rw [mem_singleton.mp hb']
        exact hbefore
  · intro w _ h
    exact ⟨h, fun b hb => by cases hb⟩
  · rintro _ w _ ⟨⟨hboth, hswept⟩, hdone⟩ hserve htime hpid hc
    by_cases ha : ∀ a ∈ v.after, a < S.bucket
    · by_cases hin : S.bucket ∈ bucketIds v.theirs v.mine
      · refine hdone S.bucket ?_ hserve htime hpid (Nat.lt_succ_self _)
        rw [hbuckets, takeWhile_eq_filter]
        · exact mem_filter.mpr ⟨hin, decide_eq_true (bucket_le_cutoff htime)⟩
        · refine (bucketIds_strict v.theirs v.mine).imp ?_
          intro x y hxy hy
          simp only [decide_eq_true_iff] at hy ⊢
          omega
      · exact hboth.settled_of_absent hserve.1 hpid ha hc hin
    · simp only [not_forall, not_lt, exists_prop] at ha
      obtain ⟨a, hmem, hle⟩ := ha
      exact hswept a hmem hserve htime hpid (Nat.lt_succ_of_le hle)

def Noted (S : Setting) (pid : Nat) (w : World) : Prop :=
  S.src = S.s.self → S.key.pid = pid → ¬ S.s.Timely S.key →
    pid ∈ w.recent ∨ S.Settled w

theorem stable_noted : S.protocol.Stable (S.Noted pid) := ((stable_recent pid).or stable_settled).imp.imp.imp

theorem spec_noteRecent (hA : S.protocol.Stable A) (pid : Nat) (mine : List (Nat × DigestCell))
    (cursor : Option Nat) : S.protocol.Spec A (S.s.noteRecent pid mine cursor) fun _ w => A w ∧
      ((∃ e ∈ mine, S.s.cutoffBucket ≤ (e.1 : Int)) ∨
        (∃ b ∈ cursor, S.s.cutoffBucket < (b : Int)) → pid ∈ w.recent) := by
  refine Spec.modify fun w hw h => ?_
  split
  · exact ⟨.inr (Move.recent w pid), hA w _ hw (Move.recent w pid) h, fun _ => mem_cons_self ..⟩
  · rename_i hno
    refine ⟨.inl rfl, h, ?_⟩
    rintro (⟨e, he, hle⟩ | ⟨b, hb, hlt⟩)
    · exact absurd (.inl (any_eq_true.mpr ⟨e, he, by simpa using hle⟩)) hno
    · refine absurd (.inr ?_) hno
      rw [show cursor = some b from hb]
      simpa using hlt

theorem noted_of_cells (hboth : S.BothSeen v w) (ha : ∀ a ∈ v.after, a < S.bucket)
    (hc : ∀ c ∈ v.cursor, S.bucket ≤ c)
    (hrecent : (∃ e ∈ v.mine, S.s.cutoffBucket ≤ (e.1 : Int)) → v.pid ∈ w.recent) : S.Noted v.pid w := by
  intro hsrc hpid hlate
  obtain ⟨B, _, hcell, hseen⟩ := hboth.2 hpid ha hc
  cases hl : v.mine.lookup S.bucket with
  | none =>
    rw [hl] at hcell
    have hempty : B = ∅ := setCell_eq_zero hcell.symm
    refine .inr (hseen.2 ?_ hsrc.symm)
    rw [hempty]
    exact Finset.notMem_empty _
  | some cell => exact .inl (hrecent ⟨_, mem_of_lookup_eq_some hl, cutoff_le_bucket hlate⟩)

def NotedTo (S : Setting) (pid : Nat) (after : Option Nat) (w : World) : Prop :=
  ∀ a, a ∈ after → S.bucket ≤ a → S.Noted pid w

theorem stable_notedTo : S.protocol.Stable (S.NotedTo pid after) :=
  Stable.forall fun _ => stable_noted.imp.imp

def Compared (S : Setting) (pid : Nat) (w : World) : Prop :=
  S.s.Faces S.toFocus → S.key.pid = pid →
    (S.s.view.isReplica pid S.dst = true → S.s.Timely S.key → S.Settled w) ∧
      S.Noted pid w

theorem stable_compared : S.protocol.Stable (S.Compared pid) :=
  (stable_settled.imp.imp.and stable_noted).imp.imp

theorem spec_bucketRound (hs : scope.pids = [v.pid])
    (hids : ∀ b ∈ bucketIds v.theirs v.mine, ∀ c ∈ v.cursor, b ≤ c) : S.protocol.Spec
      (fun w => S.BothSeen v w ∧ S.Swept v.pid v.after w ∧ S.NotedTo v.pid v.after w) (do
        S.s.noteRecent v.pid v.mine v.cursor
        each ((bucketIds v.theirs v.mine).takeWhile
            fun b : Nat => decide ((b : Int) ≤ S.s.cutoffBucket)) (S.s.visitBucket S.c scope v.pid v.theirs v.mine)
        match v.cursor with
        | none => pure (.inr ())
        | some b => if S.s.cutoffBucket < (b : Int) then pure (.inr ()) else pure (.inl (some b)) :
        Ae (Option Nat ⊕ Unit))
      fun r w => r.elim (fun after => S.Swept v.pid after w ∧ S.NotedTo v.pid after w)
        fun _ => S.Compared v.pid w := by
  have hseen : S.protocol.Stable fun w => S.BothSeen v w ∧ S.Swept v.pid v.after w ∧
    S.NotedTo v.pid v.after w := stable_bothSeen.and (stable_swept.and stable_notedTo)
  apply Spec.bind (spec_noteRecent hseen v.pid v.mine v.cursor)
  intro _
  have hstable := hseen.and ((stable_recent (S := S) v.pid).imp
    (p := (∃ e ∈ v.mine, S.s.cutoffBucket ≤ (e.1 : Int)) ∨ ∃ b ∈ v.cursor, S.s.cutoffBucket < (b : Int)))
  apply Spec.seq hstable ((spec_visitAll hs hids).pre fun w _ h => ⟨h.1.1, h.1.2.1⟩)
  intro _
  have hnoted (w : World) (h : (S.BothSeen v w ∧ S.Swept v.pid v.after w ∧
      S.NotedTo v.pid v.after w) ∧ ((∃ e ∈ v.mine, S.s.cutoffBucket ≤ (e.1 : Int)) ∨
      (∃ b ∈ v.cursor, S.s.cutoffBucket < (b : Int)) → v.pid ∈ w.recent))
      (hc : ∀ c ∈ v.cursor, S.bucket ≤ c) : S.Noted v.pid w := by
    obtain ⟨⟨hboth, _, hto⟩, hrecent⟩ := h
    by_cases ha : ∀ a ∈ v.after, a < S.bucket
    · exact noted_of_cells hboth ha hc fun hlate => hrecent (.inl hlate)
    · simp only [not_forall, not_lt, exists_prop] at ha
      obtain ⟨a, hmem, hle⟩ := ha
      exact hto a hmem hle
  obtain ⟨cursor, hcursor⟩ : ∃ cursor, cursor = v.cursor := ⟨_, rfl⟩
  rw [← hcursor] at hnoted ⊢
  cases cursor with
  | none =>
    apply Spec.ret
    rintro w _ ⟨h, hsettled⟩ hf hpid
    refine ⟨fun hrep htime => hsettled ⟨hf, hpid ▸ hrep⟩ htime hpid nofun, hnoted w h nofun⟩
  | some b =>
    dsimp only
    split
    · rename_i hlate
      apply Spec.ret
      rintro w _ ⟨h, hsettled⟩ hf hpid
      refine ⟨?_, fun _ _ _ => .inl (h.2 (.inr ⟨b, rfl, hlate⟩))⟩
      intro hrep htime
      refine hsettled ⟨hf, hpid ▸ hrep⟩ htime hpid ?_
      rintro c hc
      cases hc
      have := bucket_le_cutoff htime
      unfold bucket
      omega
    · apply Spec.ret
      rintro w _ ⟨h, hsettled⟩
      refine ⟨?_, ?_⟩
      · rintro a ha hserve htime hpid hlt
        cases ha
        refine hsettled hserve htime hpid ?_
        rintro c hc
        cases hc
        omega
      · rintro a ha hle
        cases ha
        refine hnoted w h ?_
        rintro c hc
        cases hc
        exact hle

theorem scope_pids {c : Cluster} {s : PeerSync} {pids : List Nat} (h : s.scope c pids = .ok scope) :
    scope.pids = pids := by
  simp only [PeerSync.scope, bind_eq_ok, pure_eq_ok] at h
  obtain ⟨_, _, rfl⟩ := h
  rfl

theorem spec_syncPid (pid : Nat) :
    S.protocol.Spec (fun _ => True) (S.s.syncPid S.c pid) fun _ => S.Compared pid := by
  apply Spec.bind spec_python
  intro scope
  refine Spec.assume (p := scope.pids = [pid]) (fun _ _ h => scope_pids h.2) fun hs => ?_
  refine (Spec.iterate (I := fun after w => S.Swept pid after w ∧ S.NotedTo pid after w)
    ?_ _ _).pre fun w _ _ => ⟨nofun, nofun⟩
  intro after
  have hstable : S.protocol.Stable fun w => S.Swept pid after w ∧ S.NotedTo pid after w :=
    stable_swept.and stable_notedTo
  apply Spec.seq hstable (spec_rpc hstable (fun _ => stable_bucketsAnswered)
    (spec_handleBuckets hs after _).anywhere)
  rintro ⟨cells, cursor⟩
  apply Spec.bind spec_python
  intro theirs
  apply Spec.seq ((hstable.and stable_bucketsAnswered).and (Stable.const _))
    (spec_bucketsUntil self_end pid after cursor _).anywhere
  intro mine
  have hview (w : World) (h : (((S.Swept pid after w ∧ S.NotedTo pid after w) ∧
      S.BucketsAnswered pid after (cells, cursor) w) ∧
      PeerSync.decodeCells cells = .ok theirs) ∧
      (∀ e ∈ mine, ∀ u ∈ cursor, e.1 ≤ u) ∧ S.BucketSeen S.s.self pid after cursor mine w) :
      (∀ b ∈ bucketIds theirs mine, ∀ c ∈ cursor, b ≤ c) ∧
        S.BothSeen ⟨pid, after, cursor, theirs, mine⟩ w := by
    obtain ⟨⟨⟨_, cells', ⟨hdecode, hle⟩, hpeer⟩, hd⟩, hmine, hself⟩ := h
    obtain rfl : cells' = theirs := Except.ok.inj (hdecode.symm.trans hd)
    refine ⟨?_, hpeer, hself⟩
    intro b hb c hc
    rcases mem_bucketIds.mp hb with hb | hb
    · obtain ⟨e, he, rfl⟩ := mem_map.mp hb
      exact hle e he c hc
    · obtain ⟨e, he, rfl⟩ := mem_map.mp hb
      exact hmine e he c hc
  refine Spec.assume (fun w _ h => (hview w h).1) fun hids => ?_
  refine (spec_bucketRound (v := ⟨pid, after, cursor, theirs, mine⟩) hs hids).pre ?_
  intro w _ h
  exact ⟨(hview w h).2, h.1.1.1⟩

end Setting

end Tourillon
