import Tourillon.AntiEntropy.BucketPages

namespace Tourillon

open Endian Paging GroupStorage

section Reachable

variable [Blake2b] {g : GroupStorage}

theorem CellIndex.laid {pre : Bytes} {ref : Nat → Bytes} {idOf : Bytes → Nat} {bound : Nat}
    (hi : CellIndex pre ref idOf bound) (h : DigestExact g) : Laid pre ref bound g := by
  constructor
  intro e he hpre
  obtain ⟨i, hb, hei, hcell, _⟩ := hi.entry h he hpre
  exact ⟨i, hb, hei, _, hcell⟩

theorem DigestExact.pages (h : DigestExact g) :
    WellKeyed g.tags ∧ RootsLaid g ∧ ∀ pid < 256 ^ pidSize, BucketsLaid pid g :=
  ⟨h.keyed, rootIndex.laid h, fun _ hp => (bucketIndex hp).laid h⟩

end Reachable

structure Delivers {D κ ι ε α o : Type} [LinearOrder o] (page : D → Option κ → Except ε (List ι × Option κ))
    (d : Nat → D) (key : α → o) (entries : List α) (decode : α → Option ι) : Prop where
  ascending : entries.Pairwise fun a b => key a < key b
  walks : ∃ m, Walks page d 0 none m (entries.filterMap decode)

theorem delivers_of_catalogue {D κ ι ε α : Type} [LinearOrder κ] {key : α → κ} {limit : Nat}
    {page : D → Option κ → Except ε (List ι × Option κ)} {trim : κ → D → D → Prop} {Good : D → Prop}
    {Fits : κ → Prop} {table : D → List α} {decode : α → Option ι}
    (h : Catalogue key limit page trim Good Fits table decode) (hl : 1 ≤ limit) {d : Nat → D}
    (hgood : Good (d 0)) (hd : Discreet page trim d none) : Delivers page d key (table (d 0)) decode where
  ascending := h.sorted (d 0) hgood
  walks := by
    obtain ⟨m, _, hwalk⟩ := h.walks hl hd hgood nofun
    rw [after_none] at hwalk
    exact ⟨m, hwalk⟩

structure CursorPagingExact (limit : Nat) : Prop where
  obligationPage : ∀ d : Nat → GroupStorage,
    Discreet (fun g after => g.obligationPage after limit) (PrunedIn .metadata) d none →
    Delivers (fun g after => g.obligationPage after limit) d Prod.fst (d 0).obligationEntries obligationEntry
  ownedKeys : ∀ start stop : Bytes, pidSize ≤ start.length → start.take pidSize <+: stop →
    ∀ d : Nat → GroupStorage,
    Discreet (fun g after => g.ownedKeys (after.getD start) stop limit) (PrunedIn .tags) d none →
    Delivers (fun g after => g.ownedKeys (after.getD start) stop limit) d Prod.fst
      ((d 0).between start stop) ownedKey
  logPage : ∀ d : Nat → GroupStorage, WellKeyed (d 0).tags →
    Discreet (fun g after => g.logScan after limit) (PrunedIn .tags) d none →
    Delivers (fun g after => g.logScan after limit) d Prod.fst (d 0).tags.entries tagEntry
  rootPage : ∀ d : Nat → GroupStorage, RootsLaid (d 0) →
    Discreet (fun g after => g.rootPage after limit) (fun b => PrunedIn .metadata (rootRef b)) d none →
    Delivers (fun g after => g.rootPage after limit) d Prod.fst (d 0).rootTable some
  bucketPage : ∀ pid < 256 ^ pidSize, ∀ d : Nat → GroupStorage, BucketsLaid pid (d 0) →
    Discreet (fun g after => g.bucketPage pid after limit) (fun b => PrunedIn .metadata (bucketRef pid b))
      d none →
    Delivers (fun g after => g.bucketPage pid after limit) d Prod.fst ((d 0).bucketTable pid) some
  localRootPage : ∀ (c : Cluster) (node : String), (∀ group, c.Steady node group) →
    c.partitioner.totalGroups + 1 < c.fuel → ∀ d : Nat → World,
    LocalStore.RootsPlaced c ((d 0).shared.storage node) →
    Discreet (fun w after => (LocalStore.rootPage c node after limit w).1) (LocalStore.RootsPruned c node)
      d none →
    Delivers (fun w after => (LocalStore.rootPage c node after limit w).1) d Prod.fst
      (LocalStore.rootsFrom c ((d 0).shared.storage node) 0) some
  bucketsUntil : ∀ (c : Cluster) (node : String), ∀ pid < 256 ^ pidSize, ∀ (w : World) (after upto : Option Nat),
    (∀ a ∈ after, a < 256 ^ bucketBytes) → BucketsLaid pid (LocalStore.bucketRead c node pid w 0) →
    Discreet (fun g after => g.bucketPage pid after limit) (fun b => PrunedIn .metadata (bucketRef pid b))
      (LocalStore.bucketRead c node pid w) after →
    ((LocalStore.bucketRead c node pid w 0).bucketTable pid).length < c.fuel →
    Returns (LocalStore.bucketsUntil c node pid after upto limit) w
      (((LocalStore.bucketRead c node pid w 0).bucketTable pid).filter fun e =>
        (∀ a ∈ after, a < e.1) ∧ ∀ u ∈ upto, e.1 ≤ u)

  reached : ∀ [Blake2b] (ts : List (Transaction SessionCall)),
    WellKeyed (Transaction.runAll SessionCall.run ts .empty).tags ∧
    RootsLaid (Transaction.runAll SessionCall.run ts .empty) ∧
    ∀ pid < 256 ^ pidSize, BucketsLaid pid (Transaction.runAll SessionCall.run ts .empty)

namespace Sample

def pagedDebt (wallMs : Nat) : ObligationKey :=
  ⟨"b", ⟨0, ⟨[1], [2]⟩, ⟨wallMs, 0, "a", size_a⟩⟩, named_b, size_b⟩

def owing (debts : List ObligationKey) : GroupStorage :=
  { empty with metadata := debts.foldl (fun m o => m.insert o.encode []) ∅ }

def discharging : Nat → GroupStorage
  | 0 => owing [pagedDebt 1, pagedDebt 2]
  | _ + 1 => owing [pagedDebt 2]

theorem discharging_discreet :
    Discreet (fun g after => obligationPage g after 1) (PrunedIn .metadata) discharging none := by
  intro n after xs b hcalled hpage
  cases n with
  | zero =>
    cases hcalled
    have hfirst : (discharging 0).obligationPage none 1 =
        .ok ([pagedDebt 1], some (pagedDebt 1).encode) := by decide +kernel
    obtain ⟨rfl, hb⟩ := Prod.mk.inj (Except.ok.inj (hpage.symm.trans hfirst))
    cases hb
    constructor
    · decide +kernel
    · decide +kernel
  | succ n => exact ⟨fun _ he => he, fun _ he _ => he⟩

def strayTag : GroupStorage := { empty with tags := ⟨[([0, 0, 0, 0, 0], [])], by decide⟩ }

def strayRoot : GroupStorage :=
  { empty with metadata := ⟨[(rootPrefix ++ [7], toBE 8 1 ++ toBE 16 1)], by decide⟩ }

theorem strayRoot_page {after : Option Nat} (h : after = none ∨ after = some 7) :
    strayRoot.rootPage after 1 = .ok ([(7, ⟨1, 1⟩)], some 7) := by
  rcases h with rfl | rfl
  · decide +kernel
  · decide +kernel

theorem strayRoot_endless {n m : Nat} {after : Option Nat} {xs : List (Nat × DigestCell)}
    (h : Walks (fun g after => rootPage g after 1) (fun _ => strayRoot) n after m xs) :
    ¬ (after = none ∨ after = some 7) := by
  induction h with
  | last hpage =>
    intro hafter
    rw [strayRoot_page hafter] at hpage
    cases hpage
  | more hpage _ ih =>
    intro hafter
    rw [strayRoot_page hafter] at hpage
    cases hpage
    exact ih (.inr rfl)

end Sample

end Tourillon
