import Tourillon.AntiEntropy.Watch

namespace Tourillon

open Endian Prog Protocol Sequence LocalStore List Stable DigestCell

variable {cells : List (Nat × DigestCell)}

theorem groupOf_of_within {start stop : Bytes} (hl : pidSize ≤ start.length) {k : Key}
    (hk : k.Encodable) (h : Within (start.take pidSize) start stop k) (c : Cluster) :
    groupOf c start = c.groupFor k.pid := by
  have hpre := h.pid
  have hlen : (start.take pidSize).length = (toBE pidSize k.pid).length := by
    rw [length_take, length_toBE]
    omega
  have heq : start.take pidSize = toBE pidSize k.pid := by
    refine (prefix_of_prefix_length_le hpre ?_ hlen.le).eq_of_length hlen
    exact prefix_append _ _
  rw [groupOf, show (4 : Nat) = pidSize from rfl, heq, ofBE_toBE hk.1]

theorem takeWhile_upto (hs : cells.Pairwise fun a b => a.1 < b.1) (upto : Option Nat) :
    (cells.takeWhile fun e => upto.all fun u => e.1 ≤ u) = cells.filter fun e => upto.all fun u => e.1 ≤ u := by
  refine takeWhile_eq_filter (hs.imp ?_)
  intro a b hab hb
  simp only [Option.all_eq_true, decide_eq_true_iff] at hb ⊢
  intro u hu
  exact hab.le.trans (hb u hu)

theorem takeWhile_append_upto {page : List (Nat × DigestCell)} {upto : Option Nat}
    (h : ∀ e ∈ cells, ∀ u ∈ upto, e.1 ≤ u) :
    ∀ e ∈ cells ++ page.takeWhile (fun e => upto.all fun u => e.1 ≤ u), ∀ u ∈ upto, e.1 ≤ u := by
  intro e he
  rcases mem_append.mp he with he | he
  · exact h e he
  · have hp := mem_takeWhile_imp (p := fun e : Nat × DigestCell => upto.all fun u => e.1 ≤ u) he
    simpa only [Option.all_eq_true, decide_eq_true_iff, Option.mem_def] using hp

namespace Setting

variable [Blake2b] {S : Setting} {A : World → Prop} {node : String} {w : World}
  {cells : List (Nat × DigestCell)} {start stop : Bytes} {cell : DigestCell} {α : Type} {pid group : Nat}
  {folded : List Key} {after cursor : Option Nat} {r : List Key × Option Bytes} {upto : Option Nat}
  {g : GroupStorage} {kept : List (Nat × DigestCell)}

theorem spec_interfere (hP : S.protocol.Stable A) : S.protocol.Spec A S.c.interfere fun _ => A :=
  Spec.modify fun w hw hpre => ⟨.inr (Move.env w), hP w _ hw (Move.env w) hpre⟩

theorem spec_transit (hP : S.protocol.Stable A) : S.protocol.Spec A S.c.transit fun _ => A := by
  refine Spec.bind (spec_interfere hP) fun _ => ?_
  refine Spec.bind (Spec.get (Q := fun _ => A) fun w _ hw => hw) fun w => ?_
  cases S.c.env.fault w.tick with
  | none => exact Spec.ret fun _ _ hw => hw
  | some e => exact Spec.raise

theorem spec_python {r : Except PyError α} : S.protocol.Spec A (Cluster.python r) fun a w => A w ∧ r = .ok a := by
  exact Spec.lift fun a w _ hpre hr => ⟨hpre, mapError_eq_ok hr⟩

def Snapshot {α : Type} (S : Setting) (node : String) (group : Nat)
    (f : GroupStorage → Except PyError α) (a : α) (w : World) : Prop :=
  ∃ g, (GoodGroup S.c group g ∧ f g = .ok a) ∧
    (group = S.c.groupFor S.key.pid → S.Seen node (S.key ∈ g.held) w)

theorem stable_snapshot {f : GroupStorage → Except PyError α} (a : α) :
    S.protocol.Stable (S.Snapshot node group f a) :=
  Stable.exists fun _ => (Stable.const _).and (stable_seen node _).imp

theorem spec_readSession (hn : node = S.s.self ∨ node = S.s.peer) (group : Nat)
    (f : GroupStorage → Except PyError α) :
    S.protocol.Spec (fun _ => True) (S.c.readSession node group f) (S.Snapshot node group f) := by
  refine Spec.bind (spec_interfere (const _)) fun _ => ?_
  refine Spec.bind (Spec.get (Q := fun w w' => w = w') fun _ _ _ => rfl) fun w => ?_
  refine Spec.bind (M := S.Snapshot node group f) ?_ fun a => ?_
  · refine spec_python.post fun a w' hw' h => ?_
    obtain ⟨rfl, hf⟩ := h
    refine ⟨_, ⟨S.good _ hw'.1 node hn group, hf⟩, ?_⟩
    rintro rfl
    exact seen_now node
  · refine Spec.bind (spec_interfere (stable_snapshot a)) fun _ => ?_
    exact Spec.ret fun _ _ h => h

def FoldedSnapshot {α : Type} (S : Setting) (node : String) (group : Nat)
    (f : GroupStorage → Except PyError α) (sets : α → GroupStorage → List (Finset Key)) (a : α)
    (w : World) : Prop :=
  ∃ g, (GoodGroup S.c group g ∧ f g = .ok a) ∧ (∀ A, A ∈ sets a g → A ∈ w.folds) ∧
    (group = S.c.groupFor S.key.pid → S.Seen node (S.key ∈ g.held) w)

theorem watch (hn : node = S.s.self ∨ node = S.s.peer) : Watch S.protocol S.c node fun group g w =>
      group = S.c.groupFor S.key.pid → S.Seen node (S.key ∈ g.held) w where
  good w hw group := S.good _ hw.1 node hn group
  env w _ := Move.env w
  fold w sets _ := Move.fold w sets
  now w group _ := by
    rintro rfl
    exact seen_now node
  stable _ _ := (stable_seen node _).imp
  folded := stable_folded

theorem spec_foldSession (hn : node = S.s.self ∨ node = S.s.peer) (group : Nat)
    (f : GroupStorage → Except PyError α) (sets : α → GroupStorage → List (Finset Key)) :
    S.protocol.Spec (fun _ => True) (S.c.foldSession node group f sets)
      (S.FoldedSnapshot node group f sets) := (watch hn).spec_foldSession group f sets

def KeysSeen (S : Setting) (node : String) (start stop : Bytes) (r : List Key × Option Bytes) (w : World) : Prop :=
  (∀ q ∈ r.1, q.Encodable ∧ Within (start.take pidSize) start stop q ∧ ∀ b ∈ r.2, q.encode .tags ≤ b) ∧
    (∀ b ∈ r.2, ∃ q ∈ r.1, q.encode .tags = b) ∧ r.1.Nodup ∧
    (Within (start.take pidSize) start stop S.key → (∀ b ∈ r.2, S.key.encode .tags ≤ b) →
      S.Seen node (S.key ∈ r.1) w)

theorem stable_keysSeen : S.protocol.Stable (S.KeysSeen node start stop r) :=
  (const _).and ((const _).and ((const _).and (stable_seen _ _).imp.imp))

theorem keysSeen_of_snapshot {l : Nat} (hl : pidSize ≤ start.length)
    (h : S.Snapshot node (groupOf S.c start) (fun g => g.ownedKeys start stop l) r w) :
    S.KeysSeen node start stop r w := by
  obtain ⟨g, ⟨hgood, hk⟩, hseen⟩ := h
  have hlist := ownedKeys_listing hgood.toSound hk
  refine ⟨?_, hlist.last, hlist.nodup, ?_⟩
  · intro q hq
    obtain ⟨hheld, hw, hcur⟩ := (hlist.mem q).mp hq
    exact ⟨hgood.toSound.encodable_of_held hheld, hw, hcur⟩
  · intro hw hcur
    refine (hseen (groupOf_of_within hl S.encodable hw S.c)).congr ?_
    rw [hlist.mem]
    exact ⟨fun hh => ⟨hh, hw, hcur⟩, fun hh => hh.1⟩

theorem spec_keys (hn : node = S.s.self ∨ node = S.s.peer) (hl : pidSize ≤ start.length) (stop : Bytes)
    (limit : Nat) : S.protocol.Spec (fun _ => True) (keys S.c node start stop limit) (S.KeysSeen node start stop) :=
  (spec_readSession hn _ _).post fun _ _ _ h => keysSeen_of_snapshot hl h

def FoldSeen (S : Setting) (node : String) (start stop : Bytes) (cell : DigestCell)
    (folded : List Key) (upto : Option Bytes) (w : World) : Prop :=
  ((∀ q ∈ folded, ∀ b ∈ upto, q.encode .tags ≤ b) ∧ cell = setCell folded.toFinset) ∧
    (Within (start.take pidSize) start stop S.key → (∀ b ∈ upto, S.key.encode .tags ≤ b) →
      S.Seen node (S.key ∈ folded) w)

theorem stable_foldSeen {upto : Option Bytes} : S.protocol.Stable (S.FoldSeen node start stop cell folded upto) :=
  (const _).and (stable_seen _ _).imp.imp

theorem foldl_of_eq (ks : List Key) (cell : DigestCell) :
    ks.foldl (fun cell key => cell + of key) cell = cell + (ks.map of).sum := by
  induction ks generalizing cell with
  | nil => simp
  | cons k ks ih => rw [foldl_cons, ih, map_cons, sum_cons, add_assoc]

theorem foldSeen_step {cursor : Bytes} {keys : List Key} {next : Option Bytes}
    (hpid : cursor.take pidSize = start.take pidSize)
    (hfold : S.FoldSeen node start stop cell folded (some cursor) w)
    (hkeys : S.KeysSeen node cursor stop (keys, next) w) : S.FoldSeen node start stop
      (keys.foldl (fun cell key => cell + of key) cell) (folded ++ keys) next w := by
  obtain ⟨⟨hA, rfl⟩, hseen⟩ := hfold
  obtain ⟨hk, hlast, hnodup, hkseen⟩ := hkeys
  have habove (q : Key) (hq : q ∈ keys) : cursor < q.encode .tags := (hk q hq).2.1.above
  have hbelow (q : Key) (hq : q ∈ folded) : q.encode .tags ≤ cursor := hA q hq cursor rfl
  have hdisj : Disjoint folded.toFinset keys.toFinset := by
    rw [Finset.disjoint_left]
    intro q hqA hqk
    exact absurd (habove q (mem_toFinset.mp hqk))
      (not_lt.mpr (hbelow q (mem_toFinset.mp hqA)))
  refine ⟨⟨?_, ?_⟩, ?_⟩
  · intro q hq b hb
    rcases mem_append.mp hq with hq | hq
    · obtain ⟨k, hkm, rfl⟩ := hlast b hb
      exact (hbelow q hq).trans (habove k hkm).le
    · exact (hk q hq).2.2 b hb
  · rw [foldl_of_eq, toFinset_append, setCell, setCell, Finset.sum_union hdisj, sum_toFinset _ hnodup]
  · intro hw hnext
    rcases le_or_gt (S.key.encode .tags) cursor with hle | hgt
    · refine (hseen hw fun b hb => ?_).congr ?_
      · cases hb
        exact hle
      · rw [mem_append]
        refine ⟨.inl, fun h => h.resolve_right fun hm => ?_⟩
        exact absurd (habove _ hm) (not_lt.mpr hle)
    · refine (hkseen ⟨hpid ▸ hw.pid, hgt, hw.below⟩ hnext).congr ?_
      rw [mem_append]
      refine ⟨.inr, fun h => h.resolve_left fun hm => ?_⟩
      exact absurd hgt (not_lt.mpr (hbelow _ hm))

def RangeSeen (S : Setting) (node : String) (start stop : Bytes) (cell : DigestCell) (w : World) :
    Prop :=
  Within (start.take pidSize) start stop S.key → S.CellSeen node cell w

theorem FoldSeen.range (h : S.FoldSeen node start stop cell folded none w) (hf : folded.toFinset ∈ w.folds) :
    S.RangeSeen node start stop cell w := by
  intro hw
  refine ⟨folded.toFinset, .inr hf, h.1.2, (h.2 hw (by simp)).congr ?_⟩
  rw [mem_toFinset]

theorem spec_noteFolds (hA : S.protocol.Stable A) (sets : List (Finset Key)) :
    S.protocol.Spec A (Cluster.noteFolds sets) fun _ w => A w ∧ ∀ B ∈ sets, B ∈ w.folds := by
  apply Spec.modify
  intro w hw h
  refine ⟨.inr (Move.fold w sets), hA w _ hw (Move.fold w sets) h, ?_⟩
  intro B hB
  exact mem_append_left _ hB

theorem spec_rangeDigest (hn : node = S.s.self ∨ node = S.s.peer) (hl : pidSize ≤ start.length) (stop : Bytes) :
    S.protocol.Spec (fun _ => True) (rangeDigest S.c node start stop) (S.RangeSeen node start stop) := by
  refine (Spec.iterate (I := fun b w => (b.2.2.take pidSize = start.take pidSize ∧
    pidSize ≤ b.2.2.length) ∧ S.FoldSeen node start stop b.1 b.2.1 (some b.2.2) w) ?_ _ _).pre ?_
  · rintro ⟨cell, folded, cursor⟩
    have hstable : S.protocol.Stable fun w => (cursor.take pidSize = start.take pidSize ∧
        pidSize ≤ cursor.length) ∧ S.FoldSeen node start stop cell folded (some cursor) w :=
      (const _).and stable_foldSeen
    apply Spec.seq hstable (spec_readSession hn _ _).anywhere
    rintro ⟨keys, next⟩
    apply Spec.bind (spec_interfere (hstable.and (stable_snapshot _)))
    intro _
    have hstep (w : World) (h : ((cursor.take pidSize = start.take pidSize ∧
        pidSize ≤ cursor.length) ∧ S.FoldSeen node start stop cell folded (some cursor) w) ∧
        S.Snapshot node (groupOf S.c start)
          (fun g => g.ownedKeys cursor stop scanPage) (keys, next) w) :
        S.KeysSeen node cursor stop (keys, next) w ∧ S.FoldSeen node start stop
          (keys.foldl (fun cell key => cell + of key) cell) (folded ++ keys) next w := by
      have hgroup : groupOf S.c start = groupOf S.c cursor := by
        rw [groupOf, groupOf, show (4 : Nat) = pidSize from rfl, h.1.1.1]
      have hkeys : S.KeysSeen node cursor stop (keys, next) w := by
        refine keysSeen_of_snapshot (l := scanPage) h.1.1.2 ?_
        rw [← hgroup]
        exact h.2
      exact ⟨hkeys, foldSeen_step h.1.1.1 h.1.2 hkeys⟩
    cases next with
    | none =>
      have hended : S.protocol.Stable (S.FoldSeen node start stop
          (keys.foldl (fun cell key => cell + of key) cell) (folded ++ keys) none) :=
        stable_foldSeen
      refine Spec.bind ((spec_noteFolds hended _).pre fun w _ h => (hstep w h).2)
        fun _ => Spec.ret ?_
      rintro w _ ⟨hfold, hin⟩
      exact hfold.range (hin _ (mem_singleton_self _))
    | some b =>
      apply Spec.ret
      intro w _ h
      obtain ⟨hkeys, hfold⟩ := hstep w h
      refine ⟨?_, hfold⟩
      obtain ⟨q, hq, rfl⟩ := hkeys.2.1 b rfl
      rw [← h.1.1.1]
      exact take_pid_of_prefix h.1.1.2 (hkeys.1 q hq).2.1.pid
  · intro w _ _
    refine ⟨⟨rfl, hl⟩, ⟨by simp, rfl⟩, ?_⟩
    intro hw hle
    exact absurd hw.above (not_lt.mpr (hle start rfl))

def bucket (S : Setting) : Nat := bucketOf S.key.ts.wallMs

def BucketSeen (S : Setting) (node : String) (pid : Nat) (after upto : Option Nat)
    (cells : List (Nat × DigestCell)) (w : World) : Prop :=
  S.key.pid = pid → (∀ a ∈ after, a < S.bucket) → (∀ b ∈ upto, S.bucket ≤ b) →
    S.CellSeen node ((cells.lookup S.bucket).getD 0) w

theorem stable_bucketSeen : S.protocol.Stable (S.BucketSeen node pid after upto cells) :=
  (stable_cellSeen _ _).imp.imp.imp

structure BucketIds (after cursor : Option Nat) (cells : List (Nat × DigestCell)) : Prop where
  above : ∀ e ∈ cells, ∀ a ∈ after, a < e.1
  upto : ∀ e ∈ cells, ∀ b ∈ cursor, e.1 ≤ b
  last : ∀ b ∈ cursor, ∃ e ∈ cells, e.1 = b
  sorted : cells.Pairwise fun a b => a.1 < b.1

theorem cellSeen_held (hg : GoodGroup S.c group g) {ref : Bytes} (href : ref ∈ cellRefs S.key)
    (hf : g.counted ref = ∅ ∨ g.counted ref ∈ w.folds) (hs : S.Seen node (S.key ∈ g.held) w) :
    S.CellSeen node (foldAt g.tags ref) w := by
  refine ⟨g.counted ref, hf, foldAt_eq_setCell hg.toSound ref, hs.congr ?_⟩
  rw [GroupStorage.counted, Finset.mem_filter]
  exact ⟨fun h => ⟨h, href⟩, fun h => h.1⟩

theorem counted_folded (hg : GoodGroup S.c group g)
    (hpage : CellPage g (bucketRef pid) (256 ^ bucketBytes) after cells cursor)
    (hf : ∀ A, A ∈ (cells.map fun e => g.counted (bucketRef pid e.1)) → A ∈ w.folds)
    (hb : S.bucket < 256 ^ bucketBytes) (ha : ∀ a ∈ after, a < S.bucket) (hc : ∀ b ∈ cursor, S.bucket ≤ b) :
    g.counted (bucketRef pid S.bucket) = ∅ ∨ g.counted (bucketRef pid S.bucket) ∈ w.folds := by
  by_cases hz : foldAt g.tags (bucketRef pid S.bucket) = 0
  · rw [foldAt_eq_setCell hg.toSound] at hz
    exact .inl (setCell_eq_zero hz)
  · obtain ⟨e, he, heq⟩ := mem_map.mp (hpage.found S.bucket hb ha hc hz)
    exact .inr (hf _ (mem_map.mpr ⟨e, he, by rw [heq]⟩))

theorem spec_bucketPage (hn : node = S.s.self ∨ node = S.s.peer) (pid : Nat) (after : Option Nat) (limit : Nat) :
    S.protocol.Spec (fun _ => True) (bucketPage S.c node pid after limit)
      fun r w => BucketIds after r.2 r.1 ∧ S.BucketSeen node pid after r.2 r.1 w := by
  refine (spec_foldSession hn _ _ _).post ?_
  rintro ⟨cells, cursor⟩ w _ ⟨g, ⟨hg, hc⟩, hfolds, hseen⟩
  obtain ⟨_, hpage⟩ := bucketPage_cells hg.toClean hc
  refine ⟨⟨fun e he => (hpage.range e he).1, fun e he => (hpage.range e he).2,
    fun b hb => mem_map.mp (hpage.last b hb), hpage.sorted⟩, ?_⟩
  rintro rfl ha hb
  have hlt := bucketOf_lt S.encodable
  have hlook := hpage.lookup hlt ha hb
  rw [bucket, hlook]
  exact cellSeen_held hg (by simp [cellRefs]) (counted_folded hg hpage hfolds hlt ha hb) (hseen rfl)

theorem cellSeen_append {i : Nat} (hc : ∀ e ∈ cells, ∃ b ∈ cursor, e.1 ≤ b) (hk : ∀ e ∈ kept, ∀ b ∈ cursor, b < e.1)
    (hlow : (∃ b ∈ cursor, i ≤ b) → S.CellSeen node ((cells.lookup i).getD 0) w)
    (hhigh : (∀ b ∈ cursor, b < i) → S.CellSeen node ((kept.lookup i).getD 0) w) :
    S.CellSeen node (((cells ++ kept).lookup i).getD 0) w := by
  rw [lookup_append]
  by_cases hi : ∃ b ∈ cursor, i ≤ b
  · obtain ⟨b, hb, hib⟩ := hi
    have hnone : kept.lookup i = none := by
      refine lookup_eq_none_of_forall fun e he heq => ?_
      have := hk e he b hb
      omega
    rw [hnone, Option.or_none]
    exact hlow ⟨b, hb, hib⟩
  · simp only [not_exists, not_and, not_le] at hi
    have hnone : cells.lookup i = none := by
      refine lookup_eq_none_of_forall fun e he heq => ?_
      obtain ⟨b, hb, hle⟩ := hc e he
      have := hi b hb
      omega
    rw [hnone, Option.none_or]
    exact hhigh hi

def Gathered (S : Setting) (node : String) (pid : Nat) (after : Option Nat)
    (b : List (Nat × DigestCell) × Option Nat) (w : World) : Prop :=
  (∀ e ∈ b.1, ∃ c ∈ b.2, e.1 ≤ c) ∧
    (S.key.pid = pid → (∀ a ∈ after, a < S.bucket) → (∃ c ∈ b.2, S.bucket ≤ c) →
      S.CellSeen node ((b.1.lookup S.bucket).getD 0) w)

theorem stable_gathered {b : List (Nat × DigestCell) × Option Nat} :
    S.protocol.Stable (S.Gathered node pid after b) :=
  (const _).and (stable_cellSeen _ _).imp.imp.imp

theorem gathered_append {next : Option Nat} {page : List (Nat × DigestCell)}
    (hg : S.Gathered node pid after (cells, cursor) w) (hids : BucketIds cursor next page)
    (hpage : S.BucketSeen node pid cursor next page w) (hsub : ∀ e ∈ kept, e ∈ page)
    (hkept : kept.lookup S.bucket = page.lookup S.bucket) (hpid : S.key.pid = pid)
    (ha : ∀ a ∈ after, a < S.bucket) (hb : ∀ b ∈ next, S.bucket ≤ b) :
    S.CellSeen node (((cells ++ kept).lookup S.bucket).getD 0) w := by
  refine cellSeen_append hg.1 (fun e he => hids.above e (hsub e he)) (fun h => hg.2 hpid ha h) ?_
  intro hc
  rw [hkept]
  exact hpage hpid hc hb

theorem lookup_upto (hu : ∀ u ∈ upto, S.bucket ≤ u) (page : List (Nat × DigestCell)) :
    (page.filter fun e => upto.all fun u => e.1 ≤ u).lookup S.bucket = page.lookup S.bucket := by
  refine lookup_filter_fst (p := fun i : Nat => upto.all fun u => i ≤ u) ?_ page
  simpa only [Option.all_eq_true, decide_eq_true_iff, Option.mem_def] using hu

theorem spec_bucketsUntil (hn : node = S.s.self ∨ node = S.s.peer) (pid : Nat) (after upto : Option Nat)
    (limit : Nat) : S.protocol.Spec (fun _ => True) (bucketsUntil S.c node pid after upto limit)
      fun cells w => (∀ e ∈ cells, ∀ u ∈ upto, e.1 ≤ u) ∧ S.BucketSeen node pid after upto cells w := by
  refine (Spec.iterate (I := fun b w => (∀ e ∈ b.1, ∀ u ∈ upto, e.1 ≤ u) ∧
    S.Gathered node pid after b w) ?_ _ _).pre ?_
  · rintro ⟨cells, cursor⟩
    have hstable : S.protocol.Stable fun w => (∀ e ∈ cells, ∀ u ∈ upto, e.1 ≤ u) ∧
        S.Gathered node pid after (cells, cursor) w := (const _).and stable_gathered
    apply Spec.seq hstable (spec_bucketPage hn pid cursor limit).anywhere
    rintro ⟨page, next⟩
    dsimp only
    split
    · rename_i hlt
      apply Spec.ret
      rintro w _ ⟨⟨hupto, hg⟩, hids, hpage⟩
      refine ⟨takeWhile_append_upto hupto, ?_⟩
      intro hpid ha hu
      rw [takeWhile_upto hids.sorted] at hlt ⊢
      refine gathered_append hg hids hpage (fun e he => mem_of_mem_filter he)
        (lookup_upto hu page) hpid ha ?_
      intro b hb
      by_contra hlt'
      refine absurd hlt (not_lt.mpr (le_of_eq (congrArg length ?_)))
      refine (filter_eq_self.mpr ?_).symm
      intro e he
      simp only [Option.all_eq_true, decide_eq_true_iff]
      intro u hu'
      have hle := hids.upto e he b hb
      have := hu u hu'
      omega
    · rename_i hge
      cases next with
      | none =>
        apply Spec.ret
        rintro w _ ⟨⟨hupto, hg⟩, hids, hpage⟩
        refine ⟨takeWhile_append_upto hupto, ?_⟩
        intro hpid ha hu
        rw [takeWhile_upto hids.sorted]
        exact gathered_append hg hids hpage (fun e he => mem_of_mem_filter he)
          (lookup_upto hu page) hpid ha (by simp)
      | some b =>
        apply Spec.bind (spec_interfere (hstable.and ((const _).and stable_bucketSeen)))
        intro _
        apply Spec.ret
        rintro w _ ⟨⟨hupto, hg⟩, hids, hpage⟩
        refine ⟨takeWhile_append_upto hupto, ?_⟩
        have hfull : (page.takeWhile fun e => upto.all fun u => e.1 ≤ u) = page :=
          (takeWhile_sublist _).eq_of_length_le (Nat.le_of_not_lt hge)
        rw [hfull]
        refine ⟨?_, ?_⟩
        · intro e he
          refine ⟨b, rfl, ?_⟩
          rcases mem_append.mp he with he | he
          · obtain ⟨c, hc, hle⟩ := hg.1 e he
            obtain ⟨d, hd, rfl⟩ := hids.last b rfl
            exact hle.trans (hids.above d hd c hc).le
          · exact hids.upto e he b rfl
        · rintro hpid ha ⟨c, hc, hle⟩
          cases hc
          refine gathered_append hg hids hpage (fun e he => he) rfl hpid ha ?_
          intro b' hb'
          cases hb'
          exact hle
  · intro w _ _
    refine ⟨by simp, by simp, ?_⟩
    rintro _ ha ⟨c, hc, hle⟩
    exact absurd (ha c hc) (not_lt.mpr hle)

def RootsSeen (S : Setting) (node : String) (pids : List Nat) (cells : List (Nat × DigestCell))
    (w : World) : Prop :=
  (∀ pid ∈ pids, ∃ e ∈ cells, e.1 = pid) ∧
    ∀ e, e ∈ cells → e.1 = S.key.pid → S.CellSeen node e.2 w

theorem stable_rootsSeen {pids : List Nat} : S.protocol.Stable (S.RootsSeen node pids cells) :=
  (Stable.const _).and (Stable.forall fun _ => (stable_cellSeen _ _).imp.imp)

theorem spec_rootRun (hn : node = S.s.self ∨ node = S.s.peer) {run : Nat × List Nat}
    (hrun : ∀ pid ∈ run.2, S.c.groupFor pid = run.1) : S.protocol.Spec (fun _ => True) (do
        let values ← S.c.foldSession node run.1 (fun g => g.roots run.2)
          fun _ g => run.2.map fun pid => g.counted (rootRef pid)
        pure (run.2.zip values) : Ae (List (Nat × DigestCell))) fun cells w => cells.map Prod.fst = run.2 ∧
        ∀ e, e ∈ cells → e.1 = S.key.pid → S.CellSeen node e.2 w := by
  refine Spec.bind (spec_foldSession hn _ _ _) fun values => Spec.ret ?_
  rintro w _ ⟨g, ⟨hg, hr⟩, hfolds, hseen⟩
  obtain ⟨_, rfl⟩ := roots_cells hg.toClean hr
  rw [zip_map_self]
  refine ⟨by simp [Function.comp_def], ?_⟩
  intro e he hpid
  obtain ⟨pid, hp, rfl⟩ := mem_map.mp he
  obtain rfl : pid = S.key.pid := hpid
  refine cellSeen_held hg (by simp [cellRefs]) (.inr (hfolds _ ?_)) (hseen (hrun _ hp).symm)
  exact mem_map.mpr ⟨_, hp, rfl⟩

theorem spec_roots (hn : node = S.s.self ∨ node = S.s.peer) (pids : List Nat) :
    S.protocol.Spec (fun _ => True) (roots S.c node pids) (S.RootsSeen node pids) := by
  have hkey := groupRuns_key S.c.groupFor (pids.insertionSort (· ≤ ·))
  have hflat := groupRuns_flatten S.c.groupFor (pids.insertionSort (· ≤ ·))
  refine Spec.bind ((Spec.collect (fun done w => ∀ x, x ∈ done → x.2.map Prod.fst = x.1.2 ∧
    ∀ e, e ∈ x.2 → e.1 = S.key.pid → S.CellSeen node e.2 w) ?_).pre ?_) fun cells => Spec.ret ?_
  · intro done run hrun
    refine ((spec_rootRun hn (hkey run hrun)).anywhere.keep ?_).post ?_
    · exact Stable.forall fun x => ((Stable.const _).and (Stable.forall fun e => (stable_cellSeen _ _).imp.imp)).imp
    · intro cells w _ h x hx
      rcases mem_append.mp hx with hx | hx
      · exact h.1 x hx
      · rw [mem_singleton.mp hx]
        exact h.2
  · intro w _ _ x hx
    cases hx
  · rintro w _ ⟨hlen, hdone⟩
    obtain ⟨hl, hr⟩ := exists_mem_zip hlen
    refine ⟨?_, ?_⟩
    · intro pid hp
      rw [← mem_insertionSort (· ≤ ·), ← hflat] at hp
      obtain ⟨run, hrun, hpr⟩ := mem_flatMap.mp hp
      obtain ⟨b, hb⟩ := hl run hrun
      rw [← (hdone _ hb).1] at hpr
      obtain ⟨e, he, rfl⟩ := mem_map.mp hpr
      exact ⟨e, mem_flatten.mpr ⟨b, (of_mem_zip hb).2, he⟩, rfl⟩
    · intro e he hpid
      obtain ⟨b, hb, heb⟩ := mem_flatten.mp he
      obtain ⟨run, hrun⟩ := hr b hb
      exact (hdone _ hrun).2 e heb hpid

end Setting

end Tourillon
