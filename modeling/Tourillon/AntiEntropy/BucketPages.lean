import Tourillon.AntiEntropy.RootPages

namespace Tourillon

open Endian Paging Prog

variable {pid limit : Nat}

def GroupStorage.bucketTable (g : GroupStorage) (pid : Nat) : List (Nat × DigestCell) :=
  g.cellTable (bucketPrefix ++ toBE pidSize pid) bucketId

def BucketsLaid (pid : Nat) (g : GroupStorage) : Prop :=
  Laid (bucketPrefix ++ toBE pidSize pid) (bucketRef pid) (256 ^ bucketBytes) g

theorem bucketPage_eq {g : GroupStorage} (hp : pid < 256 ^ pidSize) (h : BucketsLaid pid g) {c : Option Nat}
    (hc : ∀ a ∈ c, a < 256 ^ bucketBytes) (hl : 1 ≤ limit) :
    g.bucketPage pid c limit = .ok (cut Prod.fst limit (after Prod.fst c (g.bucketTable pid))) := by
  have hstart : c.mapM (bucketKey pid) = .ok (c.map (bucketRef pid)) :=
    mapM_of_fits fun a ha => bucketKey_eq_ok.mpr ⟨⟨hp, hc a ha⟩, rfl⟩
  rw [GroupStorage.bucketPage, if_neg (Nat.not_lt.mpr hl), intToBytes_eq_ok.mpr ⟨hp, rfl⟩, hstart]
  exact cellPage_eq (bucketIndex hp) h hc limit

theorem catalogue_bucketPage (hp : pid < 256 ^ pidSize) (hl : 1 ≤ limit) :
    Catalogue Prod.fst limit (fun g c => GroupStorage.bucketPage g pid c limit)
      (fun b => PrunedIn .metadata (bucketRef pid b)) (BucketsLaid pid) (· < 256 ^ bucketBytes)
      (fun g => g.bucketTable pid) some where
  sorted := (catalogue_cellPage (bucketIndex hp) limit).sorted
  fits := (catalogue_cellPage (bucketIndex hp) limit).fits
  paged g c h hfits := by rw [bucketPage_eq hp h hfits hl, List.filterMap_some]
  trimmed := (catalogue_cellPage (bucketIndex hp) limit).trimmed

namespace LocalStore

section BucketPages

variable {c : Cluster} {node : String} {pid limit : Nat} {upto : Option Nat} {page : List (Nat × DigestCell)}
  {w v : World} {cursor : Option Nat} {n : Nat} {more : Option Nat}

def drift (c : Cluster) (w : World) : Nat → Shared
  | 0 => w.shared
  | n + 1 => c.env.step (w.tick + n) (drift c w n)

def bucketRead (c : Cluster) (node : String) (pid : Nat) (w : World) (n : Nat) : GroupStorage :=
  (drift c w (3 * n + 1)).storage node (c.groupFor pid)

structure Reading (c : Cluster) (w : World) (n : Nat) (v : World) : Prop where
  shared : v.shared = drift c w n
  tick : v.tick = w.tick + n

theorem Reading.interfere (h : Reading c w n v) : ∃ v', c.interfere v = (.ok (), v') ∧ Reading c w (n + 1) v' := by
  refine ⟨_, rfl, ?_, ?_⟩
  · dsimp only
    rw [h.tick, h.shared]
    rfl
  · dsimp only
    rw [h.tick]
    rfl

theorem Reading.foldSession (h : Reading c w n v) {α : Type} {group : Nat}
    {f : GroupStorage → Except PyError α} (sets : α → GroupStorage → List (Finset Key)) {a : α}
    (hf : f ((drift c w (n + 1)).storage node group) = .ok a) :
    ∃ v', c.foldSession node group f sets v = (.ok a, v') ∧ Reading c w (n + 2) v' := by
  obtain ⟨v₁, hv₁, h₁⟩ := h.interfere
  have hread : Cluster.python (f (v₁.shared.storage node group)) v₁ = (.ok a, v₁) := by
    rw [h₁.shared, hf]
    rfl
  have hnoted : Reading c w (n + 1) { v₁ with folds := sets a (v₁.shared.storage node group) ++ v₁.folds } :=
    ⟨h₁.shared, h₁.tick⟩
  obtain ⟨v₂, hv₂, h₂⟩ := hnoted.interfere
  refine ⟨v₂, ?_, h₂⟩
  rw [Cluster.foldSession, bind_ok hv₁, bind_ok (show Prog.get v₁ = (.ok v₁, v₁) from rfl), bind_ok hread,
    bind_ok (show Cluster.noteFolds (sets a (v₁.shared.storage node group)) v₁ = (.ok (), _) from rfl),
    bind_ok hv₂]
  rfl

theorem Reading.bucketPage (h : Reading c w (3 * n) v)
    (hpage : (bucketRead c node pid w n).bucketPage pid cursor limit = .ok (page, more)) :
    ∃ v', LocalStore.bucketPage c node pid cursor limit v = (.ok (page, more), v') ∧
      Reading c w (3 * n + 2) v' := h.foldSession _ hpage

def bucketTurn (c : Cluster) (node : String) (pid : Nat) (upto : Option Nat) (limit : Nat)
    (s : List (Nat × DigestCell) × Option Nat) :
    Ae ((List (Nat × DigestCell) × Option Nat) ⊕ List (Nat × DigestCell)) := do
  let (page, more) ← bucketPage c node pid s.2 limit
  let kept := page.takeWhile fun e => upto.all fun u => e.1 ≤ u
  if kept.length < page.length then pure (.inr (s.1 ++ kept))
  else match more with
    | none => pure (.inr (s.1 ++ kept))
    | some next => do
      c.interfere
      pure (.inl (s.1 ++ kept, some next))

theorem bucketsUntil_eq (after : Option Nat) :
    bucketsUntil c node pid after upto limit = c.loop (bucketTurn c node pid upto limit) ([], after) := rfl

theorem bucketTurn_stop (hv : Reading c w (3 * n) v)
    (hpage : (bucketRead c node pid w n).bucketPage pid cursor limit = .ok (page, more))
    (hstop : (page.takeWhile fun e => upto.all fun u => e.1 ≤ u).length < page.length ∨ more = none)
    (cells : List (Nat × DigestCell)) : ∃ v', bucketTurn c node pid upto limit (cells, cursor) v =
      (.ok (.inr (cells ++ page.takeWhile fun e => upto.all fun u => e.1 ≤ u)), v') := by
  obtain ⟨v', hrun, _⟩ := hv.bucketPage hpage
  refine ⟨v', ?_⟩
  rw [bucketTurn, bind_ok hrun]
  dsimp only
  split
  · rfl
  · rename_i hall
    rw [hstop.resolve_left hall]
    rfl

theorem bucketTurn_more (hv : Reading c w (3 * n) v) {b : Nat}
    (hpage : (bucketRead c node pid w n).bucketPage pid cursor limit = .ok (page, some b))
    (hall : (page.takeWhile fun e => upto.all fun u => e.1 ≤ u) = page) (cells : List (Nat × DigestCell)) :
    ∃ v', bucketTurn c node pid upto limit (cells, cursor) v = (.ok (.inl (cells ++ page, some b)), v') ∧
      Reading c w (3 * (n + 1)) v' := by
  obtain ⟨v₁, hrun, h₁⟩ := hv.bucketPage hpage
  obtain ⟨v₂, hpause, h₂⟩ := h₁.interfere
  refine ⟨v₂, ?_, h₂⟩
  rw [bucketTurn, bind_ok hrun]
  dsimp only
  rw [hall, if_neg (Nat.lt_irrefl _), bind_ok hpause]
  rfl

theorem takeWhile_upto {es : List (Nat × DigestCell)} (h : es.Pairwise fun a b => a.1 < b.1) (upto : Option Nat) :
    (es.takeWhile fun e => upto.all fun u => e.1 ≤ u) = es.filter fun e => upto.all fun u => e.1 ≤ u := by
  refine Sequence.takeWhile_eq_filter (h.imp ?_)
  intro a b hab hb
  cases upto with
  | none => rfl
  | some u =>
    simp only [Option.all_some, decide_eq_true_iff] at hb ⊢
    exact hab.le.trans hb

theorem bucketsUntil_walk (upto : Option Nat) {m : Nat} {xs : List (Nat × DigestCell)}
    (hwalk : Walks (fun g c => GroupStorage.bucketPage g pid c limit) (bucketRead c node pid w) n cursor m xs)
    (hv : Reading c w (3 * n) v) {fuel : Nat} (hfuel : m < n + fuel) (cells : List (Nat × DigestCell)) :
    ∃ v', iterate AeError.unfinished (bucketTurn c node pid upto limit) fuel (cells, cursor) v =
      (.ok (cells ++ xs.takeWhile fun e => upto.all fun u => e.1 ≤ u), v') := by
  induction hwalk generalizing v fuel cells with
  | @last n cursor xs hpage =>
    obtain ⟨fuel, rfl⟩ : ∃ k, fuel = k + 1 := Nat.exists_eq_add_one.mpr (by omega)
    obtain ⟨v', hturn⟩ := bucketTurn_stop hv hpage (.inr rfl) cells
    refine ⟨v', ?_⟩
    rw [iterate, bind_ok hturn]
    rfl
  | @more n m cursor b xs ys hpage hrest ih =>
    have hlater := hrest.le
    obtain ⟨fuel, rfl⟩ : ∃ k, fuel = k + 1 := Nat.exists_eq_add_one.mpr (by omega)
    rw [List.takeWhile_append]
    have hkept := List.takeWhile_sublist (l := xs) fun e => upto.all fun u => decide (e.1 ≤ u)
    by_cases hlen : (xs.takeWhile fun e => upto.all fun u => e.1 ≤ u).length = xs.length
    · obtain ⟨v', hturn, hv'⟩ := bucketTurn_more hv hpage (hkept.eq_of_length hlen) cells
      have hleft : m < n + 1 + fuel := by omega
      obtain ⟨v'', hloop⟩ := ih hv' hleft (cells ++ xs)
      refine ⟨v'', ?_⟩
      rw [if_pos hlen, iterate, bind_ok hturn, ← List.append_assoc]
      exact hloop
    · have hcut := lt_of_le_of_ne hkept.length_le hlen
      obtain ⟨v', hturn⟩ := bucketTurn_stop hv hpage (.inl hcut) cells
      refine ⟨v', ?_⟩
      rw [if_neg hlen, iterate, bind_ok hturn]
      rfl

theorem returns_bucketsUntil (hp : pid < 256 ^ pidSize) (hl : 1 ≤ limit)
    (hlaid : BucketsLaid pid (bucketRead c node pid w 0)) (hc : ∀ a ∈ cursor, a < 256 ^ bucketBytes)
    (hd : Discreet (fun g c => GroupStorage.bucketPage g pid c limit)
      (fun b => PrunedIn .metadata (bucketRef pid b)) (bucketRead c node pid w) cursor)
    (hfuel : ((bucketRead c node pid w 0).bucketTable pid).length < c.fuel) :
    Returns (bucketsUntil c node pid cursor upto limit) w
      (((bucketRead c node pid w 0).bucketTable pid).filter fun e =>
        (∀ a ∈ cursor, a < e.1) ∧ ∀ u ∈ upto, e.1 ≤ u) := by
  obtain ⟨m, hm, hwalk⟩ := (catalogue_bucketPage hp hl).walks hl hd hlaid hc
  rw [List.filterMap_some] at hwalk
  have hlen : m < 0 + c.fuel := by
    have hless : (after Prod.fst cursor ((bucketRead c node pid w 0).bucketTable pid)).length ≤
        ((bucketRead c node pid w 0).bucketTable pid).length := List.length_filter_le _ _
    omega
  obtain ⟨v, hrun⟩ := bucketsUntil_walk upto (v := w) hwalk ⟨rfl, rfl⟩ hlen []
  refine ⟨v, ?_⟩
  have hsorted := after_sorted ((catalogue_bucketPage hp hl).sorted _ hlaid) cursor
  rw [bucketsUntil_eq, Cluster.loop, hrun, List.nil_append, takeWhile_upto hsorted, after, List.filter_filter]
  congr 2
  refine List.filter_congr ?_
  intro e _
  cases upto with
  | none => simp
  | some u => simp [and_comm]

end BucketPages

end LocalStore

end Tourillon
