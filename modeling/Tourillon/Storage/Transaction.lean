import Tourillon.Library.OrderedMap
import Tourillon.Library.Sequence
import Tourillon.Schema.Record

namespace Tourillon

open Endian List OrderedMap

abbrev Db := OrderedMap Bytes Bytes

@[ext] structure GroupStorage where
  logs : Db
  tags : Db
  metadata : Db

namespace GroupStorage

variable (g : GroupStorage) {e : Bytes × Bytes} {reverse : Bool} {d : Db} {pre start : Option Bytes}
  {limit : Nat}

def empty : GroupStorage := ⟨∅, ∅, ∅⟩

section

variable (g : GroupStorage)

def db : Keyspace → Db
  | .logs => g.logs
  | .tags => g.tags
  | .metadata => g.metadata

def withDb (ks : Keyspace) (d : Db) : GroupStorage :=
  match ks with
  | .logs => { g with logs := d }
  | .tags => { g with tags := d }
  | .metadata => { g with metadata := d }

def get (ks : Keyspace) (key : Bytes) : Option Bytes := (g.db ks).get key

def put (kv : KVPair) (overwrite : Bool := true) : Bool × GroupStorage :=
  if overwrite || !(g.db kv.keyspace).contains kv.key then
    (true, g.withDb kv.keyspace ((g.db kv.keyspace).insert kv.key kv.value))
  else (false, g)

def delete (ks : Keyspace) (key : Bytes) : GroupStorage := g.withDb ks ((g.db ks).erase key)

end

def cursorRange (d : Db) (key : Bytes) (reverse : Bool) : List (Bytes × Bytes) :=
  if reverse then (d.below (key ++ [255])).reverse else d.above key

def positionCursor (d : Db) (pre start : Option Bytes) (reverse : Bool) : List (Bytes × Bytes) :=
  match start, pre with
  | some start, _ => cursorRange d start reverse
  | none, some pre => cursorRange d pre reverse
  | none, none => if reverse then d.entries.reverse else d.entries

def startsWith (pre : Option Bytes) (key : Bytes) : Bool :=
  match pre with
  | some pre => pre.isPrefixOf key
  | none => true

section

variable (g : GroupStorage) (ks : Keyspace) (pre start : Option Bytes) (limit : Nat)

def list (reverse : Bool := false) : List (Bytes × Bytes) :=
  ((positionCursor (g.db ks) pre start reverse).takeWhile (fun e => startsWith pre e.1)).take limit

def keys (reverse : Bool := false) : List Bytes := (g.list ks pre start limit reverse).map Prod.fst

end

def last (g : GroupStorage) (ks : Keyspace) (pre : Bytes) : Option (Bytes × Bytes) :=
  (g.list ks (some pre) none 1 true).head?

theorem mem_cursorRange {key : Bytes} (h : e ∈ cursorRange d key reverse) : e ∈ d.entries := by
  cases reverse with
  | false => exact (mem_above.mp h).1
  | true => exact (mem_below.mp (mem_reverse.mp h)).1

theorem mem_positionCursor (h : e ∈ positionCursor d pre start reverse) : e ∈ d.entries := by
  unfold positionCursor at h
  split at h
  · exact mem_cursorRange h
  · exact mem_cursorRange h
  · cases reverse with
    | false => exact h
    | true => exact mem_reverse.mp h

theorem mem_list {g : GroupStorage} {ks : Keyspace} (h : e ∈ g.list ks pre start limit reverse) :
    e ∈ (g.db ks).entries ∧ startsWith pre e.1 := by
  have ht := mem_of_mem_take h
  refine ⟨mem_positionCursor ((takeWhile_sublist _).subset ht), ?_⟩
  exact mem_takeWhile_imp (p := fun e : Bytes × Bytes => startsWith pre e.1) ht

theorem length_list_le (ks : Keyspace) (pre start : Option Bytes) (limit : Nat) (reverse : Bool) :
    (g.list ks pre start limit reverse).length ≤ limit :=
  length_take_le ..

theorem nodup_positionCursor (d : Db) (pre start : Option Bytes) (reverse : Bool) :
    ((positionCursor d pre start reverse).map Prod.fst).Nodup := by
  have hf (p : Bytes × Bytes → Bool) : ((d.entries.filter p).map Prod.fst).Nodup :=
    d.nodup_keys.sublist (filter_sublist.map Prod.fst)
  have hr {l : List (Bytes × Bytes)} (h : (l.map Prod.fst).Nodup) :
      (l.reverse.map Prod.fst).Nodup := by
    rw [map_reverse]
    exact nodup_reverse.mpr h
  have hc (key : Bytes) : ((cursorRange d key reverse).map Prod.fst).Nodup := by
    cases reverse with
    | false => exact hf _
    | true => exact hr (hf _)
  unfold positionCursor
  split
  · exact hc _
  · exact hc _
  · cases reverse with
    | false => exact d.nodup_keys
    | true => exact hr d.nodup_keys

theorem nodup_keys (ks : Keyspace) (pre start : Option Bytes) (limit : Nat) (reverse : Bool) :
    (g.keys ks pre start limit reverse).Nodup := by
  refine (nodup_positionCursor (g.db ks) pre start reverse).sublist ?_
  exact ((take_sublist _ _).trans (takeWhile_sublist _)).map Prod.fst

theorem list_forward_eq (ks : Keyspace) {pre start : Bytes} (limit : Nat) (h : pre <+: start) :
    g.list ks (some pre) (some start) limit =
      ((g.db ks).entries.filter (fun e => start < e.1 ∧ pre <+: e.1)).take limit := by
  have hsorted : ((g.db ks).above start).Pairwise
      (fun a b => startsWith (some pre) b.1 → startsWith (some pre) a.1) := by
    refine ((g.db ks).sorted.filter _).imp_of_mem ?_
    intro a b ha hb hab hp
    simp only [startsWith, isPrefixOf_iff_prefix] at hp ⊢
    exact prefix_of_between h hp (mem_above.mp ha).2.le hab.le
  show (((g.db ks).above start).takeWhile _).take limit = _
  rw [Sequence.takeWhile_eq_filter hsorted, above, filter_filter]
  congr 1
  refine filter_congr ?_
  intro e _
  rw [Bool.eq_iff_iff]
  simp [startsWith, and_comm]

theorem list_prefix_eq (ks : Keyspace) (pre : Bytes) (limit : Nat) :
    g.list ks (some pre) none limit = g.list ks (some pre) (some pre) limit := rfl

def pageCursor (page : List (Bytes × Bytes)) (limit : Nat) : Option Bytes :=
  if page.length = limit then page.getLast?.map Prod.fst else none

structure Page (d : Db) (pre start : Bytes) (page : List (Bytes × Bytes)) (cursor : Option Bytes) :
    Prop where
  mem : ∀ e, e ∈ page ↔ e ∈ d.entries ∧ start < e.1 ∧ pre <+: e.1 ∧ ∀ b ∈ cursor, e.1 ≤ b
  last : ∀ b ∈ cursor, ∃ e ∈ page, e.1 = b
  sorted : page.Pairwise fun a b => a.1 < b.1

theorem Page.takeWhile_lt {d : Db} {pre start : Bytes} {page : List (Bytes × Bytes)} {cursor : Option Bytes}
    (h : Page d pre start page cursor) (stop : Bytes) :
    page.takeWhile (fun kv => kv.1 < stop) = page.filter fun kv => kv.1 < stop := by
  refine Sequence.takeWhile_eq_filter (h.sorted.imp ?_)
  intro a b hab hb
  simp only [decide_eq_true_iff] at hb ⊢
  exact hab.trans hb

theorem list_page (ks : Keyspace) {pre start : Bytes} (h : pre <+: start) (hl : 1 ≤ limit) :
    Page (g.db ks) pre start (g.list ks (some pre) (some start) limit)
      (pageCursor (g.list ks (some pre) (some start) limit) limit) := by
  rw [list_forward_eq g ks limit h]
  obtain ⟨es, hes⟩ : ∃ es, es = (g.db ks).entries.filter (fun e => start < e.1 ∧ pre <+: e.1) := ⟨_, rfl⟩
  have hsorted : es.Pairwise fun a b => a.1 < b.1 := by
    rw [hes]
    exact (g.db ks).sorted.filter _
  have hmem (e : Bytes × Bytes) : e ∈ es ↔ e ∈ (g.db ks).entries ∧ start < e.1 ∧ pre <+: e.1 := by
    rw [hes, mem_filter, decide_eq_true_iff]
  rw [← hes]
  rcases Nat.lt_or_ge es.length limit with hlt | hge
  · have hne : (es.take limit).length ≠ limit := by
      rw [length_take]
      omega
    rw [pageCursor, if_neg hne, take_of_length_le hlt.le]
    refine ⟨fun e => by simp [hmem], by simp, hsorted⟩
  · have hlen : (es.take limit).length = limit := by
      rw [length_take]
      omega
    have hnil : es.take limit ≠ [] := by
      intro hn
      rw [hn, length_nil] at hlen
      omega
    rw [pageCursor, if_pos hlen, getLast?_eq_some_getLast hnil, Option.map_some]
    have happ := take_append_drop limit es
    have hsplit := hsorted
    rw [← happ, pairwise_append] at hsplit
    obtain ⟨htake, _, hcross⟩ := hsplit
    have hle (e : Bytes × Bytes) (he : e ∈ es.take limit) :
        e.1 ≤ ((es.take limit).getLast hnil).1 := by
      rw [← dropLast_append_getLast hnil] at he htake
      rcases mem_append.mp he with he | he
      · exact ((pairwise_append.mp htake).2.2 e he _ (by simp)).le
      · rw [mem_singleton.mp he]
    refine ⟨?_, ?_, htake⟩
    · intro e
      simp only [Option.mem_def, Option.some.injEq, forall_eq']
      constructor
      · intro he
        obtain ⟨hd, hs, hp⟩ := (hmem e).mp (mem_of_mem_take he)
        exact ⟨hd, hs, hp, hle e he⟩
      · rintro ⟨hd, hs, hp, hb⟩
        have he := (hmem e).mpr ⟨hd, hs, hp⟩
        rw [← happ] at he
        rcases mem_append.mp he with he | he
        · exact he
        · exact absurd (hcross _ (getLast_mem hnil) e he) (not_lt.mpr hb)
    · intro b hb
      refine ⟨_, getLast_mem hnil, ?_⟩
      simpa using hb

end GroupStorage

end Tourillon
