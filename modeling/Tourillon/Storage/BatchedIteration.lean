import Tourillon.Storage.Transaction

namespace Tourillon

open Endian Sequence List GroupStorage OrderedMap

variable {a : Bytes} {m : Nat}

def nextPageKey (key : Bytes) (reverse : Bool) : Bytes :=
  if reverse then
    match key.reverse.dropWhile fun b => b = 0 with
    | [] => []
    | b :: front => front.reverse ++ (b - 1) :: replicate (key.length - front.length - 1) 255
  else
    match key.reverse.dropWhile fun b => b = 255 with
    | [] => key ++ [0]
    | b :: front => front.reverse ++ [b + 1]

def setupLimit (limit : Option Int) (batchSize : Int) : Int × Option Int :=
  match limit with
  | none => (batchSize, none)
  | some n => if n < 0 then (batchSize, none) else (min batchSize n, some n)

namespace GroupStorage

def listAll (g : GroupStorage) (ks : Keyspace) (pre start : Option Bytes) (reverse : Bool) : List (Bytes × Bytes) :=
  (positionCursor (g.db ks) pre start reverse).takeWhile fun e => startsWith pre e.1

def iterPages (g : GroupStorage) (ks : Keyspace) (pre : Option Bytes) (reverse : Bool)
    (batchSize : Int) : Nat → Option Bytes → Option Int → Option (List (Bytes × Bytes))
  | 0, _, _ => none
  | fuel + 1, start, remaining =>
    let batch := g.list ks pre start batchSize.toNat reverse
    match batch.getLast? with
    | none => some []
    | some last =>
      let nextKey := some (nextPageKey last.1 reverse)
      match remaining with
      | none => (g.iterPages ks pre reverse batchSize fuel nextKey none).map (batch ++ ·)
      | some n =>
        if n ≤ batch.length then some (batch.take n.toNat)
        else (g.iterPages ks pre reverse batchSize fuel nextKey (some (n - batch.length))).map (batch ++ ·)

def iter (g : GroupStorage) (fuel : Nat) (ks : Keyspace) (pre start : Option Bytes) (reverse : Bool)
    (batchSize : Int) (limit : Option Int) : Option (List (Bytes × Bytes)) :=
  let (batchSize, remaining) := setupLimit limit batchSize
  if batchSize ≤ 0 then some []
  else g.iterPages ks pre reverse batchSize fuel start remaining

theorem list_eq_take (g : GroupStorage) (ks : Keyspace) (pre start : Option Bytes) (limit : Nat)
    (reverse : Bool) : g.list ks pre start limit reverse = (g.listAll ks pre start reverse).take limit := rfl

end GroupStorage

theorem exists_append_of_between {p x y : Bytes} (hxa : ¬ a < p ++ x) (hay : ¬ p ++ y < a) :
    ∃ t, a = p ++ t ∧ ¬ t < x ∧ ¬ y < t := by
  obtain ⟨t, rfl⟩ := prefix_of_between (prefix_append p x) (prefix_append p y) (not_lt.mp hxa)
    (not_lt.mp hay)
  refine ⟨t, rfl, ?_⟩
  simpa only [append_lt_append_iff rfl, lt_irrefl, false_or, true_and] using And.intro hxa hay

theorem not_lt_replicate_top (h : ¬ a < replicate m 255) : replicate m 255 <+: a := by
  induction m generalizing a with
  | zero => exact nil_prefix
  | succ m ih =>
    rw [replicate_succ] at h ⊢
    cases a with
    | nil => exact absurd (nil_lt_cons _ _) h
    | cons b a =>
      rw [cons_lt_cons_iff, not_or, not_and, UInt8.lt_iff_toNat_lt, not_lt] at h
      have hb : b = 255 := UInt8.toNat_inj.mp (le_antisymm (Nat.le_of_lt_succ b.toNat_lt) h.1)
      rw [cons_prefix_cons]
      exact ⟨hb.symm, ih (h.2 hb)⟩

theorem lt_replicate_zero (h : a < replicate m 0) : ∃ n, replicate m 0 = a ++ replicate (n + 1) 0 := by
  induction m generalizing a with
  | zero => cases h
  | succ m ih =>
    cases a with
    | nil => exact ⟨m, rfl⟩
    | cons b a =>
      rw [replicate_succ, cons_lt_cons_iff] at h
      obtain ⟨rfl, htail⟩ := h.resolve_left UInt8.not_lt_zero
      obtain ⟨n, hn⟩ := ih htail
      exact ⟨n, by rw [replicate_succ, hn, cons_append]⟩

theorem split_trailing (c : UInt8) (key : Bytes) :
    (key.reverse.dropWhile (fun b => b = c) = [] ∧ ∀ b ∈ key, b = c) ∨
    ∃ front b m, key = front ++ b :: replicate m c ∧ b ≠ c := by
  cases hdrop : key.reverse.dropWhile fun b => b = c with
  | nil =>
    refine .inl ⟨rfl, ?_⟩
    intro b hb
    exact of_decide_eq_true (dropWhile_eq_nil_iff.mp hdrop b (mem_reverse.mpr hb))
  | cons b front =>
    have htrail : key.reverse.takeWhile (fun b => b = c) = replicate _ c :=
      eq_replicate_of_mem fun b hb => by simpa using mem_takeWhile_imp hb
    have hsplit := takeWhile_append_dropWhile (p := fun b => b = c) (l := key.reverse)
    rw [hdrop, htrail] at hsplit
    refine .inr ⟨front.reverse, b, _, by simpa using (congrArg reverse hsplit).symm, ?_⟩
    have hne : key.reverse.dropWhile (fun b => b = c) ≠ [] := by simp [hdrop]
    simpa [hdrop] using head_dropWhile_not (fun b => b = c) hne

section Split

variable {front key k : Bytes} {b : UInt8} {m : Nat} {c : UInt8}

theorem dropWhile_split (hb : b ≠ c) :
    (front ++ b :: replicate m c).reverse.dropWhile (fun b => b = c) = b :: front.reverse := by
  simp [hb]

theorem nextPageKey_forward (hb : b ≠ 255) :
    nextPageKey (front ++ b :: replicate m 255) false = front ++ [b + 1] := by
  rw [nextPageKey, dropWhile_split hb, if_neg Bool.false_ne_true]
  dsimp only
  rw [reverse_reverse]

theorem nextPageKey_reverse (hb : b ≠ 0) :
    nextPageKey (front ++ b :: replicate m 0) true = front ++ (b - 1) :: replicate m 255 := by
  have hlength : (front ++ b :: replicate m 0).length - front.reverse.length - 1 = m := by simp
  rw [nextPageKey, dropWhile_split hb, if_pos rfl]
  dsimp only
  rw [hlength, reverse_reverse]

theorem toNat_succ (hb : b ≠ 255) : (b + 1).toNat = b.toNat + 1 := by
  have hsmall := b.toNat_lt
  have hval : b.toNat ≠ 255 := fun heq => hb (UInt8.toNat_inj.mp heq)
  rw [UInt8.toNat_add, show (1 : UInt8).toNat = 1 from rfl, Nat.mod_eq_of_lt (by omega)]

theorem toNat_pred (hb : b ≠ 0) : (b - 1).toNat + 1 = b.toNat := by
  have hval : b.toNat ≠ 0 := fun heq => hb (UInt8.toNat_inj.mp heq)
  have hone : (1 : UInt8).toNat = 1 := rfl
  rw [UInt8.toNat_sub_of_le _ _ (by rw [UInt8.le_iff_toNat_le, hone]; omega), hone]
  omega

theorem cons_lt_of_toNat {b : UInt8} (h : b.toNat < c.toNat) (t t' : Bytes) :
    front ++ b :: t < front ++ c :: t' := by
  rw [append_lt_append_iff rfl, cons_lt_cons_iff, UInt8.lt_iff_toNat_lt]
  exact .inr ⟨rfl, .inl h⟩

theorem forward_skips (hb : b ≠ 255) (hkey : key = front ++ b :: replicate m 255) :
    (key < k ∧ ¬ front ++ [b + 1] < k) ↔ (key <+: k ∧ k ≠ key) ∨ k = front ++ [b + 1] := by
  have hsucc := toNat_succ hb
  subst hkey
  constructor
  · rintro ⟨hlow, hhigh⟩
    obtain ⟨t, rfl, hle, hge⟩ := exists_append_of_between hlow.asymm hhigh
    cases t with
    | nil => exact absurd (nil_lt_cons _ _) hle
    | cons c t =>
      rw [cons_lt_cons_iff, not_or, not_and, UInt8.lt_iff_toNat_lt] at hle hge
      by_cases heq : c = b
      · subst heq
        refine .inl ⟨?_, hlow.ne'⟩
        rw [prefix_append_right_inj, cons_prefix_cons]
        exact ⟨rfl, not_lt_replicate_top (hle.2 rfl)⟩
      · have hne : c.toNat ≠ b.toNat := fun h => heq (UInt8.toNat_inj.mp h)
        have hc : c = b + 1 := UInt8.toNat_inj.mp (by omega)
        subst hc
        cases t with
        | nil => exact .inr rfl
        | cons d t => exact absurd (nil_lt_cons _ _) (hge.2 rfl)
  · rintro (⟨⟨t, rfl⟩, hne⟩ | rfl)
    · have ht : t ≠ [] := by
        rintro rfl
        simp at hne
      refine ⟨self_lt_append ht, ?_⟩
      rw [append_assoc, cons_append]
      exact (cons_lt_of_toNat (by omega) _ _).asymm
    · exact ⟨cons_lt_of_toNat (by omega) _ _, lt_irrefl _⟩

theorem trimmed_split {n : Nat} (hb : b ≠ 0) (h : front ++ b :: replicate m 0 = k ++ replicate (n + 1) 0) :
    ∃ t, k = front ++ b :: t := by
  rcases append_eq_append_iff.mp h with ⟨t, rfl, ht⟩ | ⟨t, rfl, ht⟩
  · cases t with
    | nil => exact absurd (cons.inj ht).1 hb
    | cons c t => exact ⟨t, by rw [(cons.inj ht).1]⟩
  · refine absurd (eq_of_mem_replicate (n := n + 1) ?_) hb
    rw [ht]
    simp

theorem reverse_skips (hb : b ≠ 0) (hkey : key = front ++ b :: replicate m 0) :
    (k < key ∧ ¬ k < front ++ (b - 1) :: replicate (m + 1) 255) ↔
      (∃ n, key = k ++ replicate (n + 1) 0) ∨ front ++ (b - 1) :: replicate (m + 1) 255 <+: k := by
  have hpred := toNat_pred hb
  subst hkey
  constructor
  · rintro ⟨hhigh, hlow⟩
    obtain ⟨t, rfl, hle, -⟩ := exists_append_of_between hlow hhigh.asymm
    rw [append_lt_append_iff rfl] at hhigh
    replace hhigh := (hhigh.resolve_left (lt_irrefl _)).2
    cases t with
    | nil => exact absurd (nil_lt_cons _ _) hle
    | cons c t =>
      rw [cons_lt_cons_iff, not_or, not_and, UInt8.lt_iff_toNat_lt] at hle
      rw [cons_lt_cons_iff, UInt8.lt_iff_toNat_lt] at hhigh
      rcases hhigh with hlt | ⟨rfl, hzero⟩
      · have hc : c = b - 1 := UInt8.toNat_inj.mp (by omega)
        refine .inr ?_
        rw [prefix_append_right_inj, cons_prefix_cons]
        exact ⟨hc.symm, not_lt_replicate_top (hle.2 hc)⟩
      · obtain ⟨n, hn⟩ := lt_replicate_zero hzero
        exact .inl ⟨n, by rw [hn, append_assoc, cons_append]⟩
  · rintro (⟨n, hn⟩ | ⟨t, rfl⟩)
    · obtain ⟨t, rfl⟩ := trimmed_split hb hn
      rw [hn]
      exact ⟨self_lt_append (by simp), (cons_lt_of_toNat (by omega) _ _).asymm⟩
    · rw [append_assoc, cons_append]
      refine ⟨cons_lt_of_toNat (by omega) _ _, ?_⟩
      rw [← cons_append, ← append_assoc]
      exact (prefix_append _ t).le

theorem lt_nextPageKey (key : Bytes) : key < nextPageKey key false := by
  rcases split_trailing 255 key with ⟨hdrop, _⟩ | ⟨front, b, m, rfl, hb⟩
  · simp only [nextPageKey, hdrop, Bool.false_eq_true, if_false]
    exact self_lt_append (cons_ne_nil _ _)
  · rw [nextPageKey_forward hb]
    exact cons_lt_of_toNat (by rw [toNat_succ hb]; omega) _ _

theorem nextPageKey_reverse_lt (h : ∃ b ∈ key, b ≠ 0) : nextPageKey key true ++ [255] < key := by
  rcases split_trailing 0 key with ⟨_, hall⟩ | ⟨front, b, m, rfl, hb⟩
  · obtain ⟨b, hmem, hne⟩ := h
    exact absurd (hall b hmem) hne
  · rw [nextPageKey_reverse hb, append_assoc, cons_append]
    exact cons_lt_of_toNat (by rw [← toNat_pred hb]; omega) _ _

end Split

def ResumesForward (keys : List Bytes) (key : Bytes) : Prop :=
  ((∃ b ∈ key, b ≠ 255) → ∀ k ∈ keys, key <+: k → k = key) ∧
  (∀ front b m, key = front ++ b :: replicate m 255 → b ≠ 255 → front ++ [b + 1] ∉ keys) ∧
  ((∀ b ∈ key, b = 255) → key ++ [0] ∉ keys)

def ResumesReverse (keys : List Bytes) (key : Bytes) : Prop :=
  (∀ k ∈ keys, ∀ n, key ≠ k ++ replicate (n + 1) 0) ∧
  ∀ front b m, key = front ++ b :: replicate m 0 → b ≠ 0 →
    ∀ k ∈ keys, ¬ front ++ (b - 1) :: replicate (m + 1) 255 <+: k

section Resumes

variable {keys : List Bytes} {key : Bytes}

theorem resumesForward_iff : ResumesForward keys key ↔ ∀ k ∈ keys, key < k → nextPageKey key false < k := by
  rcases split_trailing 255 key with ⟨hdrop, hall⟩ | ⟨front, b, m, hkey, hb⟩
  · have hnext : nextPageKey key false = key ++ [0] := by simp [nextPageKey, hdrop]
    rw [hnext]
    constructor
    · rintro ⟨_, _, hzero⟩ k hk hlt
      by_contra hnot
      rw [← append_nil key] at hlt
      obtain ⟨t, rfl, _, ht⟩ := exists_append_of_between hlt.asymm hnot
      cases t with
      | nil => exact lt_irrefl _ hlt
      | cons c t =>
        rw [cons_lt_cons_iff, not_or, not_and, UInt8.lt_iff_toNat_lt, not_lt] at ht
        obtain rfl : c = 0 := UInt8.toNat_inj.mp (Nat.le_zero.mp ht.1)
        cases t with
        | nil => exact hzero hall hk
        | cons d t => exact ht.2 rfl (nil_lt_cons _ _)
    · intro h
      refine ⟨fun ⟨b, hb, hne⟩ => absurd (hall b hb) hne, ?_, ?_⟩
      · rintro front b m rfl hb
        exact absurd (hall b (by simp)) hb
      · intro _ hmem
        exact lt_irrefl _ (h _ hmem (self_lt_append (cons_ne_nil _ _)))
  · have hnext : nextPageKey key false = front ++ [b + 1] := by rw [hkey, nextPageKey_forward hb]
    have hskips (k : Bytes) : (key < k → front ++ [b + 1] < k) ↔
        (key <+: k → k = key) ∧ k ≠ front ++ [b + 1] := by
      have hk := forward_skips (k := k) hb hkey
      tauto
    have hmem : b ∈ key := by simp [hkey]
    simp only [hnext, hskips]
    constructor
    · rintro ⟨hext, hnot, _⟩ k hk
      exact ⟨hext ⟨b, hmem, hb⟩ k hk, fun h => hnot front b m hkey hb (h ▸ hk)⟩
    · intro h
      refine ⟨fun _ k hk => (h k hk).1, ?_, fun hall => absurd (hall b hmem) hb⟩
      intro front' b' m' hkey' hb' hlisted
      rw [← nextPageKey_forward hb', ← hkey'] at hlisted
      exact (h _ hlisted).2 hnext

theorem resumesReverse_iff (hne : ∃ b ∈ key, b ≠ 0) :
    ResumesReverse keys key ↔ ∀ k ∈ keys, k < key → k < nextPageKey key true ++ [255] := by
  rcases split_trailing 0 key with ⟨_, hall⟩ | ⟨front, b, m, hkey, hb⟩
  · obtain ⟨b, hmem, hb⟩ := hne
    exact absurd (hall b hmem) hb
  · have hnext {front : Bytes} {b : UInt8} {m : Nat} (hkey : key = front ++ b :: replicate m 0) (hb : b ≠ 0) :
        nextPageKey key true ++ [255] = front ++ (b - 1) :: replicate (m + 1) 255 := by
      rw [hkey, nextPageKey_reverse hb, replicate_succ']
      simp
    have hskips (k : Bytes) : (k < key → k < nextPageKey key true ++ [255]) ↔
        (∀ n, key ≠ k ++ replicate (n + 1) 0) ∧ ¬ nextPageKey key true ++ [255] <+: k := by
      have hk := reverse_skips (k := k) hb hkey
      rw [← hnext hkey hb] at hk
      rw [← not_exists, ← not_or, ← hk, not_and_not_right]
    simp only [hskips]
    constructor
    · rintro ⟨htrim, hnot⟩ k hk
      rw [hnext hkey hb]
      exact ⟨htrim k hk, hnot front b m hkey hb k hk⟩
    · intro h
      refine ⟨fun k hk => (h k hk).1, ?_⟩
      intro front' b' m' hkey' hb' k hk
      rw [← hnext hkey' hb']
      exact (h k hk).2

theorem resumesReverse_zero (hall : ∀ b ∈ key, b = 0) : ResumesReverse keys key ↔ ∀ k ∈ keys, ¬ k < key := by
  constructor
  · rintro ⟨htrim, _⟩ k hk hlt
    rw [eq_replicate_of_mem hall] at hlt
    obtain ⟨n, hn⟩ := lt_replicate_zero hlt
    exact htrim k hk n (by rw [← hn, ← eq_replicate_of_mem hall])
  · intro h
    refine ⟨?_, ?_⟩
    · intro k hk n hkey
      refine h k hk ?_
      rw [hkey]
      exact self_lt_append (by simp)
    · rintro front b m rfl hb
      exact absurd (hall b (by simp)) hb

end Resumes

namespace GroupStorage

variable {reverse : Bool} {pre start : Option Bytes} {d : Db} {key : Bytes}

def bounded (start : Option Bytes) (reverse : Bool) (key : Bytes) : Prop :=
  ∀ s ∈ start, if reverse then key < s ++ [255] else s < key

instance (start : Option Bytes) (reverse : Bool) (key : Bytes) : Decidable (bounded start reverse key) :=
  inferInstanceAs (Decidable (∀ s ∈ start, if reverse then key < s ++ [255] else s < key))

def directed {α : Type} (reverse : Bool) (l : List α) : List α := if reverse then l.reverse else l

def listed (d : Db) (pre start : Option Bytes) (reverse : Bool) : List (Bytes × Bytes) :=
  directed reverse (d.entries.filter fun e => bounded start reverse e.1 ∧ startsWith pre e.1)

theorem cursorRange_eq (d : Db) (s : Bytes) (reverse : Bool) : cursorRange d s reverse =
      directed reverse (d.entries.filter fun e => bounded (some s) reverse e.1) := by
  cases reverse with
  | false =>
    refine filter_congr fun e _ => ?_
    rw [decide_eq_decide]
    simp [bounded]
  | true =>
    refine congrArg reverse (filter_congr fun e _ => ?_)
    rw [decide_eq_decide]
    simp [bounded]

theorem positionCursor_eq (d : Db) (pre start : Option Bytes) (reverse : Bool) :
    positionCursor d pre start reverse =
      directed reverse (d.entries.filter fun e => bounded (start.or pre) reverse e.1) := by
  cases start with
  | some s => exact cursorRange_eq d s reverse
  | none =>
    cases pre with
    | some p => exact cursorRange_eq d p reverse
    | none =>
      have hall : d.entries.filter (fun e => decide (bounded none reverse e.1)) = d.entries :=
        filter_eq_self.mpr fun e _ => decide_eq_true nofun
      rw [Option.or_none, hall]
      rfl

def Anchored (pre start : Option Bytes) (reverse : Bool) : Prop :=
  ∀ p ∈ pre, ∃ s k, start = some s ∧ p <+: k ∧ if reverse then s ++ [255] ≤ k else k ≤ s

theorem takeWhile_listed (h : Anchored pre start reverse) :
    (directed reverse (d.entries.filter fun e => bounded start reverse e.1)).takeWhile
      (fun e => startsWith pre e.1) = listed d pre start reverse := by
  have hsorted : (directed reverse (d.entries.filter fun e => bounded start reverse e.1)).Pairwise
      (fun a b => startsWith pre b.1 → startsWith pre a.1) := by
    cases pre with
    | none => exact pairwise_of_forall fun _ _ _ => rfl
    | some p =>
      obtain ⟨s, k, rfl, hk, hbound⟩ := h p rfl
      cases reverse with
      | false =>
        refine (d.sorted.filter _).imp_of_mem ?_
        intro a b ha _ hab hb
        simp only [startsWith, isPrefixOf_iff_prefix] at hb ⊢
        have hlow : s < a.1 := of_decide_eq_true (mem_filter.mp ha).2 s rfl
        exact prefix_of_between hk hb (le_of_lt (lt_of_le_of_lt hbound hlow)) hab.le
      | true =>
        refine pairwise_reverse.mpr ((d.sorted.filter _).imp_of_mem ?_)
        intro b a _ ha hab hb
        simp only [startsWith, isPrefixOf_iff_prefix] at hb ⊢
        have hhigh : a.1 < s ++ [255] := of_decide_eq_true (mem_filter.mp ha).2 s rfl
        exact prefix_of_between hb hk hab.le (hhigh.le.trans hbound)
  have hfilter : (d.entries.filter fun e => decide (bounded start reverse e.1)).filter
      (fun e => startsWith pre e.1) =
      d.entries.filter fun e => bounded start reverse e.1 ∧ startsWith pre e.1 := by
    rw [filter_filter]
    refine filter_congr fun e _ => ?_
    rw [Bool.eq_iff_iff]
    simp [and_comm]
  rw [takeWhile_eq_filter hsorted, listed, ← hfilter]
  cases reverse with
  | false => rfl
  | true => exact filter_reverse ..

theorem listAll_eq {g : GroupStorage} {ks : Keyspace} (h : Anchored pre (start.or pre) reverse) :
    g.listAll ks pre start reverse = listed (g.db ks) pre (start.or pre) reverse := by
  rw [listAll, positionCursor_eq, takeWhile_listed h]

theorem anchored_start (pre : Option Bytes) (reverse : Bool) : Anchored pre pre reverse := by
  intro p hp
  cases reverse with
  | false => exact ⟨p, p, hp, prefix_refl p, le_refl p⟩
  | true => exact ⟨p, p ++ [255], hp, prefix_append .., le_refl _⟩

def beyond (reverse : Bool) (key key' : Bytes) : Prop := if reverse then key' < key else key < key'

instance (reverse : Bool) (key key' : Bytes) : Decidable (beyond reverse key key') :=
  inferInstanceAs (Decidable (if reverse then key' < key else key < key'))

theorem mem_listed {e : Bytes × Bytes} : e ∈ listed d pre start reverse ↔
      e ∈ d.entries ∧ bounded start reverse e.1 ∧ startsWith pre e.1 = true := by
  cases reverse <;> simp [listed, directed]

def Advances (reverse : Bool) (key : Bytes) : Prop := reverse = true → ∃ b ∈ key, b ≠ 0

theorem Advances.beyond {k : Bytes} (h : Advances reverse key)
    (hk : bounded (some (nextPageKey key reverse)) reverse k) : beyond reverse key k := by
  cases reverse with
  | false => exact (lt_nextPageKey key).trans (hk _ rfl)
  | true => exact lt_trans (hk _ rfl) (nextPageKey_reverse_lt (h rfl))

theorem listed_next (hbounded : bounded pre reverse key) (h : Advances reverse key) :
    listed d pre (some (nextPageKey key reverse)) reverse =
      ((listed d pre pre reverse).filter fun e => beyond reverse key e.1).filter
        fun e => bounded (some (nextPageKey key reverse)) reverse e.1 := by
  have hfilter : (d.entries.filter fun e =>
      bounded (some (nextPageKey key reverse)) reverse e.1 ∧ startsWith pre e.1 = true) =
      ((d.entries.filter fun e => bounded pre reverse e.1 ∧ startsWith pre e.1 = true).filter
        fun e => beyond reverse key e.1).filter
          fun e => bounded (some (nextPageKey key reverse)) reverse e.1 := by
    rw [filter_filter, filter_filter]
    refine filter_congr fun e he => ?_
    rw [Bool.eq_iff_iff]
    simp only [decide_eq_true_eq, Bool.and_eq_true]
    constructor
    · rintro ⟨hnext, hstart⟩
      have hbeyond := h.beyond hnext
      refine ⟨⟨hnext, hbeyond⟩, fun s hs => ?_, hstart⟩
      cases reverse with
      | false => exact lt_trans (hbounded s hs) hbeyond
      | true => exact lt_trans hbeyond (hbounded s hs)
    · rintro ⟨⟨hnext, _⟩, _, hstart⟩
      exact ⟨hnext, hstart⟩
  rw [listed, hfilter, listed]
  cases reverse with
  | false => rfl
  | true => simp only [directed, if_true, filter_reverse]

theorem listed_pairwise (d : Db) (pre start : Option Bytes) (reverse : Bool) :
    (listed d pre start reverse).Pairwise fun a b => beyond reverse a.1 b.1 := by
  cases reverse with
  | false => exact d.sorted.filter _
  | true => exact pairwise_reverse.mpr (d.sorted.filter _)

theorem filter_beyond {before after : List (Bytes × Bytes)} {a : Bytes × Bytes}
    (h : (before ++ a :: after).Pairwise fun a b => beyond reverse a.1 b.1) :
    (before ++ a :: after).filter (fun e => beyond reverse a.1 e.1) = after := by
  have hasymm {x y : Bytes} (hxy : beyond reverse x y) : ¬ beyond reverse y x := by
    cases reverse with
    | false => exact hxy.asymm
    | true => exact hxy.asymm
  have hself : ¬ beyond reverse a.1 a.1 := fun hrefl => hasymm hrefl hrefl
  obtain ⟨_, htail, hcross⟩ := pairwise_append.mp h
  have hbefore : before.filter (fun e => decide (beyond reverse a.1 e.1)) = [] :=
    filter_eq_nil_iff.mpr fun e he hb => hasymm (hcross e he a mem_cons_self)
      (of_decide_eq_true hb)
  have hafter : after.filter (fun e => decide (beyond reverse a.1 e.1)) = after :=
    filter_eq_self.mpr fun e he => decide_eq_true ((pairwise_cons.mp htail).1 e he)
  rw [filter_append, hbefore, nil_append, filter_cons_of_neg (by rw [decide_eq_true_eq]; exact hself), hafter]

section Pages

variable {g : GroupStorage} {ks : Keyspace} {pre : Option Bytes} {reverse : Bool} {n size fuel : Nat}

theorem listAll_start : g.listAll ks pre none reverse = listed (g.db ks) pre pre reverse :=
  listAll_eq (anchored_start pre reverse)

theorem bounded_of_beyond {s : Option Bytes} {x y : Bytes} (hx : bounded s reverse x)
    (h : beyond reverse x y) : bounded s reverse y := by
  intro k hk
  cases reverse with
  | false => exact lt_trans (hx k hk) h
  | true => exact lt_trans h (hx k hk)

def Shielded (d : Db) (pre : Option Bytes) (key : Bytes) : Prop :=
  ∃ e ∈ d.entries, key < e.1 ∧ e.1 < [255] ∧ startsWith pre e.1 = false

def Resumes (d : Db) (pre : Option Bytes) (keys : List Bytes) (reverse : Bool) (key : Bytes) : Prop :=
  if reverse then ResumesReverse keys key ∧ ((∀ b ∈ key, b = 0) → Shielded d pre key)
  else ResumesForward keys key

theorem zeros_lt_top {key : Bytes} (h : ∀ b ∈ key, b = 0) : key < [255] := by
  cases key with
  | nil => exact nil_lt_cons _ _
  | cons b key =>
    rw [h b mem_cons_self, cons_lt_cons_iff]
    exact .inl (by decide)

theorem advances_or_zero (reverse : Bool) (key : Bytes) :
    Advances reverse key ∨ reverse = true ∧ ∀ b ∈ key, b = 0 := by
  by_cases h : reverse = true ∧ ∀ b ∈ key, b = 0
  · exact .inr h
  · refine .inl fun hreverse => ?_
    simpa [hreverse] using h

section Next

variable {before after : List (Bytes × Bytes)} {a : Bytes × Bytes}
  (hsplit : g.listAll ks pre none reverse = before ++ a :: after)

include hsplit

theorem after_eq : (g.listAll ks pre none reverse).filter (fun e => beyond reverse a.1 e.1) = after := by
  have hpairwise := listed_pairwise (g.db ks) pre pre reverse
  rw [← listAll_start, hsplit] at hpairwise
  rw [hsplit, filter_beyond hpairwise]

theorem listed_of_split : a ∈ (g.db ks).entries ∧ bounded pre reverse a.1 ∧ startsWith pre a.1 = true := by
  refine mem_listed.mp ?_
  rw [← listAll_start, hsplit]
  simp

theorem listAll_next (h : Advances reverse a.1) : g.listAll ks pre (some (nextPageKey a.1 reverse)) reverse =
      after.filter fun e => bounded (some (nextPageKey a.1 reverse)) reverse e.1 := by
  obtain ⟨_, hbounded, hstarts⟩ := listed_of_split hsplit
  have hanchored : Anchored pre (some (nextPageKey a.1 reverse)) reverse := by
    intro p hp
    refine ⟨nextPageKey a.1 reverse, a.1, rfl, ?_, ?_⟩
    · rw [hp] at hstarts
      exact isPrefixOf_iff_prefix.mp hstarts
    · cases reverse with
      | false => exact (lt_nextPageKey a.1).le
      | true => exact (nextPageKey_reverse_lt (h rfl)).le
  rw [listAll_eq hanchored, Option.some_or, listed_next hbounded h, ← listAll_start, after_eq hsplit]

theorem listAll_next_of_head (h : Advances reverse a.1)
    (hhead : (g.listAll ks pre (some (nextPageKey a.1 reverse)) reverse).head? = after.head?) :
    g.listAll ks pre (some (nextPageKey a.1 reverse)) reverse = after := by
  rw [listAll_next hsplit h] at hhead ⊢
  cases after with
  | nil => rfl
  | cons x after =>
    have hx := of_decide_eq_true (mem_filter.mp (mem_of_mem_head? hhead)).2
    have hpairwise := listed_pairwise (g.db ks) pre pre reverse
    rw [← listAll_start, hsplit] at hpairwise
    have hafter := (pairwise_cons.mp (pairwise_cons.mp (pairwise_append.mp hpairwise).2.1).2).1
    refine filter_eq_self.mpr (forall_mem_cons.mpr ⟨decide_eq_true hx, fun e he => decide_eq_true ?_⟩)
    exact bounded_of_beyond hx (hafter e he)

theorem resumes_iff_of_advances (h : Advances reverse a.1) :
    g.listAll ks pre (some (nextPageKey a.1 reverse)) reverse = after ↔
      ∀ k ∈ (g.listAll ks pre none reverse).map Prod.fst, beyond reverse a.1 k →
        bounded (some (nextPageKey a.1 reverse)) reverse k := by
  rw [listAll_next hsplit h, filter_eq_self, ← after_eq hsplit]
  simp only [mem_filter, decide_eq_true_eq, and_imp, forall_mem_map]

theorem exists_restart (hreverse : reverse = true) (hall : ∀ b ∈ a.1, b = 0) : ∃ top, ¬ top.1 < a.1 ∧
      (g.listAll ks pre (some (nextPageKey a.1 reverse)) reverse).head? =
        (if startsWith pre top.1 then some top else none) ∧
      (startsWith pre top.1 = false ↔ Shielded (g.db ks) pre a.1) := by
  subst hreverse
  obtain ⟨hmem, _, hstarts⟩ := listed_of_split hsplit
  have hnext : nextPageKey a.1 true = [] := by
    have hdrop : a.1.reverse.dropWhile (fun b => b = 0) = [] :=
      dropWhile_eq_nil_iff.mpr fun b hb => decide_eq_true (hall b (mem_reverse.mp hb))
    simp [nextPageKey, hdrop]
  have hbelow (e : Bytes × Bytes) : e ∈ (below (g.db ks) [255]).reverse ↔
      e ∈ (g.db ks).entries ∧ e.1 < [255] := by
    simp [below]
  have hsorted : (below (g.db ks) [255]).reverse.Pairwise fun x y => y.1 < x.1 :=
    pairwise_reverse.mpr ((g.db ks).sorted.filter _)
  have ha := (hbelow a).mpr ⟨hmem, zeros_lt_top hall⟩
  rw [hnext, listAll, positionCursor, cursorRange, if_pos rfl, nil_append]
  generalize (below (g.db ks) [255]).reverse = below at hbelow hsorted ha
  cases below with
  | nil => cases ha
  | cons top below =>
    have hle : ∀ e ∈ top :: below, ¬ top.1 < e.1 :=
      forall_mem_cons.mpr ⟨lt_irrefl _, fun e he => ((pairwise_cons.mp hsorted).1 e he).asymm⟩
    refine ⟨top, ?_, ?_, ?_⟩
    · exact hle a ha
    · rw [takeWhile_cons]
      split <;> rfl
    · obtain ⟨htop, hsmall⟩ := (hbelow top).mp mem_cons_self
      constructor
      · intro hforeign
        refine ⟨top, htop, ?_, hsmall, hforeign⟩
        refine lt_of_le_of_ne (not_lt.mp (hle a ha)) fun heq => ?_
        rw [heq, hforeign] at hstarts
        cases hstarts
      · rintro ⟨e, he, hlow, hhigh, hforeign⟩
        cases pre with
        | none => cases hforeign
        | some p =>
          rw [startsWith, isPrefixOf_iff_prefix] at hstarts
          rw [startsWith, ← Bool.not_eq_true, isPrefixOf_iff_prefix] at hforeign ⊢
          exact fun hp => hforeign (prefix_of_between hstarts hp hlow.le
            (not_lt.mp (hle e ((hbelow e).mpr ⟨he, hhigh⟩))))

theorem restart_of_head (hreverse : reverse = true) (hall : ∀ b ∈ a.1, b = 0)
    (hhead : (g.listAll ks pre (some (nextPageKey a.1 reverse)) reverse).head? = after.head?) :
    g.listAll ks pre (some (nextPageKey a.1 reverse)) reverse = [] ∧ after = [] ∧ Shielded (g.db ks) pre a.1 := by
  obtain ⟨top, htop, hfirst, hshielded⟩ := exists_restart hsplit hreverse hall
  cases hstarts : startsWith pre top.1 with
  | true =>
    rw [hfirst, hstarts, if_pos rfl] at hhead
    have hmem := mem_of_mem_head? hhead.symm
    subst hreverse
    rw [← after_eq hsplit] at hmem
    exact absurd (of_decide_eq_true (mem_filter.mp hmem).2) htop
  | false =>
    rw [hstarts, if_neg Bool.false_ne_true] at hfirst
    rw [hfirst] at hhead
    exact ⟨head?_eq_none_iff.mp hfirst, head?_eq_none_iff.mp hhead.symm, hshielded.mp hstarts⟩

theorem resumed_of_head (hhead : (g.listAll ks pre (some (nextPageKey a.1 reverse)) reverse).head? = after.head?) :
    g.listAll ks pre (some (nextPageKey a.1 reverse)) reverse = after := by
  rcases advances_or_zero reverse a.1 with h | ⟨hreverse, hall⟩
  · exact listAll_next_of_head hsplit h hhead
  · obtain ⟨hnil, rfl, _⟩ := restart_of_head hsplit hreverse hall hhead
    exact hnil

theorem resumed_iff : g.listAll ks pre (some (nextPageKey a.1 reverse)) reverse = after ↔
      Resumes (g.db ks) pre ((g.listAll ks pre none reverse).map Prod.fst) reverse a.1 := by
  rcases advances_or_zero reverse a.1 with h | ⟨rfl, hall⟩
  · rw [resumes_iff_of_advances hsplit h, Resumes]
    cases reverse with
    | false =>
      rw [if_neg Bool.false_ne_true, resumesForward_iff]
      simp [bounded, beyond]
    | true =>
      obtain ⟨b, hmem, hb⟩ := h rfl
      have hzero : (∀ b ∈ a.1, b = 0) → Shielded (g.db ks) pre a.1 := fun hall => absurd (hall b hmem) hb
      rw [if_pos rfl, resumesReverse_iff ⟨b, hmem, hb⟩, and_iff_left hzero]
      simp [bounded, beyond]
  · rw [Resumes, if_pos rfl, resumesReverse_zero hall, forall_mem_map]
    have hempty : after = [] ↔ ∀ e ∈ g.listAll ks pre none true, ¬ e.1 < a.1 := by
      rw [← after_eq hsplit, filter_eq_nil_iff]
      simp [beyond]
    rw [← hempty]
    constructor
    · intro heq
      obtain ⟨_, hnil, hshielded⟩ := restart_of_head hsplit rfl hall (congrArg head? heq)
      exact ⟨hnil, fun _ => hshielded⟩
    · rintro ⟨rfl, hshielded⟩
      obtain ⟨top, _, hfirst, hiff⟩ := exists_restart hsplit rfl hall
      rw [hiff.mpr (hshielded hall), if_neg Bool.false_ne_true] at hfirst
      exact head?_eq_none_iff.mp hfirst

end Next

def page (listing : List (Bytes × Bytes)) (size n : Nat) : List (Bytes × Bytes) :=
  (listing.drop (n * size)).take size

def PagesResume (d : Db) (pre : Option Bytes) (listing : List (Bytes × Bytes)) (size : Nat)
    (reverse : Bool) (first : Nat) : Prop :=
  ∀ n, first ≤ n → ∀ e ∈ (page listing size n).getLast?, Resumes d pre (listing.map Prod.fst) reverse e.1

theorem map_take_append {α : Type} {l : List α} {o : Option (List α)} :
    o.map (l.take n ++ ·) = some l ↔ o = some (l.drop n) := by
  have hcancel (r : List α) : l.take n ++ r = l ↔ r = l.drop n := by
    have hsame : l.take n ++ r = l.take n ++ l.drop n ↔ r = l.drop n := append_right_inj _
    rwa [take_append_drop] at hsame
  simp [Option.map_eq_some_iff, hcancel]

theorem iterPages_head (hsize : 1 ≤ size) {out : List (Bytes × Bytes)}
    (h : g.iterPages ks pre reverse size fuel start none = some out) :
    (g.listAll ks pre start reverse).head? = out.head? := by
  cases fuel with
  | zero => cases h
  | succ fuel =>
    rw [iterPages, list_eq_take, Int.toNat_natCast] at h
    cases hlisting : g.listAll ks pre start reverse with
    | nil =>
      rw [hlisting, take_nil] at h
      cases h
      rfl
    | cons x rest =>
      obtain ⟨size, rfl⟩ := Nat.exists_eq_add_of_le' hsize
      rw [hlisting, take_succ_cons] at h
      cases hlast : (x :: rest.take size).getLast? with
      | none => simp at hlast
      | some last =>
        rw [hlast] at h
        dsimp only at h
        obtain ⟨tail, _, rfl⟩ := Option.map_eq_some_iff.mp h
        rfl

theorem PagesResume.succ_iff {d : Db} {listing : List (Bytes × Bytes)} {a : Bytes × Bytes}
    (h : (page listing size n).getLast? = some a) : PagesResume d pre listing size reverse n ↔
      Resumes d pre (listing.map Prod.fst) reverse a.1 ∧ PagesResume d pre listing size reverse (n + 1) := by
  constructor
  · exact fun hall => ⟨hall n le_rfl a h, fun m hm => hall m (by omega)⟩
  · rintro ⟨hfirst, hrest⟩ m hm e he
    rcases Nat.eq_or_lt_of_le hm with rfl | hlt
    · cases Option.mem_unique h he
      exact hfirst
    · exact hrest m hlt e he

theorem iterPages_iff (hsize : 1 ≤ size)
    (hstart : g.listAll ks pre start reverse = (g.listAll ks pre none reverse).drop (n * size))
    (hfuel : (g.listAll ks pre start reverse).length < fuel) :
    g.iterPages ks pre reverse size fuel start none = some (g.listAll ks pre start reverse) ↔
      PagesResume (g.db ks) pre (g.listAll ks pre none reverse) size reverse n := by
  induction fuel generalizing n start with
  | zero => omega
  | succ fuel ih =>
    have hpage : page (g.listAll ks pre none reverse) size n = (g.listAll ks pre start reverse).take size := by
      rw [page, hstart]
    rw [iterPages, list_eq_take, Int.toNat_natCast]
    cases hlast : ((g.listAll ks pre start reverse).take size).getLast? with
    | none =>
      have hempty : g.listAll ks pre start reverse = [] := by
        rcases take_eq_nil_iff.mp (getLast?_eq_none_iff.mp hlast) with hzero | hnil
        · omega
        · exact hnil
      rw [hempty] at hstart
      refine iff_of_true (by rw [hempty]) fun m hm e he => ?_
      have hdrop : (g.listAll ks pre none reverse).drop (m * size) = [] := by
        have hle := drop_eq_nil_iff.mp hstart.symm
        exact drop_eq_nil_of_le (hle.trans (Nat.mul_le_mul_right size hm))
      rw [page, hdrop, take_nil] at he
      cases he
    | some a =>
      obtain ⟨front, hfront⟩ := getLast?_eq_some_iff.mp hlast
      have hsplit : g.listAll ks pre none reverse =
          ((g.listAll ks pre none reverse).take (n * size) ++ front) ++
            a :: (g.listAll ks pre start reverse).drop size := by
        rw [append_assoc, ← singleton_append, ← append_assoc front, ← hfront, take_append_drop, hstart,
          take_append_drop]
      rw [PagesResume.succ_iff (hpage ▸ hlast), ← resumed_iff hsplit]
      dsimp only
      have hrest : g.listAll ks pre (some (nextPageKey a.1 reverse)) reverse =
          (g.listAll ks pre start reverse).drop size →
          (g.iterPages ks pre reverse size fuel (some (nextPageKey a.1 reverse)) none =
              some (g.listAll ks pre (some (nextPageKey a.1 reverse)) reverse) ↔
            PagesResume (g.db ks) pre (g.listAll ks pre none reverse) size reverse (n + 1)) := by
        intro hnext
        refine ih ?_ ?_
        · rw [hnext, hstart, drop_drop, Nat.succ_mul]
        · have hne : 0 < (g.listAll ks pre start reverse).length := by
            have hlength := congrArg length hfront
            rw [length_take, length_append, length_singleton] at hlength
            omega
          rw [hnext, length_drop]
          omega
      rw [map_take_append]
      constructor
      · intro h
        have hnext := resumed_of_head hsplit (iterPages_head hsize h)
        exact ⟨hnext, (hrest hnext).mp (by rw [hnext]; exact h)⟩
      · rintro ⟨hnext, hpages⟩
        rw [← hnext]
        exact (hrest hnext).mpr hpages

end Pages

end GroupStorage

namespace Sample

def tagged (keys : List Bytes) (h : keys.Pairwise (· < ·)) : GroupStorage :=
  { empty with
    tags := ⟨keys.map fun key => (key, []), pairwise_map.mpr h⟩ }

def neighbours : GroupStorage := tagged [[97], [98]] (by decide)

def apart : GroupStorage := tagged [[97], [99]] (by decide)

def zeroKey : GroupStorage := tagged [[0]] (by decide)

theorem zeroKey_restarts (fuel : Nat) : zeroKey.iterPages .tags none true 1 fuel (some []) none = none := by
  induction fuel with
  | zero => rfl
  | succ fuel ih =>
    have hpage : zeroKey.list .tags none (some []) 1 true = [([0], [])] := by decide
    have hnext : nextPageKey [0] true = [] := by decide
    rw [iterPages, show (1 : Int).toNat = 1 from rfl, hpage]
    dsimp only [getLast?_singleton]
    rw [hnext, ih]
    rfl

def shielded : GroupStorage := tagged [[0, 0], [5]] (by decide)

end Sample

end Tourillon
