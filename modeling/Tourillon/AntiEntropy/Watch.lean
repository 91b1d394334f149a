import Tourillon.AntiEntropy.Setting

namespace Tourillon

open Prog Protocol List

theorem mapError_eq_ok {α : Type} {r : Except PyError α} {a : α}
    (h : r.mapError AeError.python = .ok a) : r = .ok a := by
  cases r with
  | error e => cases h
  | ok b =>
    cases h
    rfl

theorem Partitioner.groupFor_mono (p : Partitioner) {i j : Nat} (h : i ≤ j) : p.groupFor i ≤ p.groupFor j := by
  unfold Partitioner.groupFor
  rw [Nat.shiftRight_eq_div_pow, Nat.shiftRight_eq_div_pow]
  exact Nat.div_le_div_right h

theorem last_of_sorted {page : List (Nat × DigestCell)} {l : Nat × DigestCell}
    (h : (page ++ [l]).Pairwise fun a b => a.1 < b.1) {e : Nat × DigestCell} (he : e ∈ page ++ [l]) :
    e.1 ≤ l.1 := by
  rcases mem_append.mp he with he | he
  · exact ((pairwise_append.mp h).2.2 e he l (mem_singleton_self l)).le
  · rw [mem_singleton.mp he]

variable [Blake2b]

structure Watch (P : Protocol World) (c : Cluster) (node : String)
    (Obs : Nat → GroupStorage → World → Prop) : Prop where
  good : ∀ w, P.inv w → ∀ group, GoodGroup c group (w.shared.storage node group)
  env : ∀ w, P.inv w →
    P.move w { w with shared := c.env.step w.tick w.shared, tick := w.tick + 1 }
  fold : ∀ w sets, P.inv w → P.move w { w with folds := sets ++ w.folds }
  now : ∀ w group, P.inv w → Obs group (w.shared.storage node group) w
  stable : ∀ group g, P.Stable (Obs group g)
  folded : ∀ A, P.Stable fun w => A ∈ w.folds

namespace Watch

variable {P : Protocol World} {c : Cluster} {node : String} {Obs : Nat → GroupStorage → World → Prop}
  {roots : List (Nat × DigestCell)} {group : Nat} {after cursor : Option Nat} {e : Nat × DigestCell} {w : World}

theorem spec_interfere (h : Watch P c node Obs) {A : World → Prop} (hA : P.Stable A) :
    P.Spec A c.interfere fun _ => A := by
  apply Spec.modify
  intro w hw ha
  exact ⟨.inr (h.env w hw), hA _ _ hw (h.env w hw) ha⟩

theorem spec_foldSession {α : Type} (h : Watch P c node Obs) (group : Nat)
    (f : GroupStorage → Except PyError α) (sets : α → GroupStorage → List (Finset Key)) :
    P.Spec (fun _ => True) (c.foldSession node group f sets)
      fun a w => ∃ g, (GoodGroup c group g ∧ f g = .ok a) ∧ (∀ A, A ∈ sets a g → A ∈ w.folds) ∧ Obs group g w := by
  have hstable (a : α) : P.Stable fun w => ∃ g, (GoodGroup c group g ∧ f g = .ok a) ∧
      (∀ A, A ∈ sets a g → A ∈ w.folds) ∧ Obs group g w :=
    Stable.exists fun g => (Stable.const _).and
      ((Stable.forall fun A => (h.folded A).imp).and (h.stable group g))
  apply Spec.bind (h.spec_interfere (Stable.const _))
  intro _
  apply Spec.bind (Spec.get (Q := fun w w' => w = w') fun _ _ _ => rfl)
  intro w
  apply Spec.bind (M := fun a w' => w = w' ∧ f (w.shared.storage node group) = .ok a)
  · apply Spec.lift
    intro a w' _ heq ha
    exact ⟨heq, mapError_eq_ok ha⟩
  intro a
  apply Spec.bind (M := fun _ w' => ∃ g, (GoodGroup c group g ∧ f g = .ok a) ∧
      (∀ A, A ∈ sets a g → A ∈ w'.folds) ∧ Obs group g w')
  · apply Spec.modify
    rintro w' hw' ⟨rfl, hf⟩
    have hmove := h.fold w (sets a (w.shared.storage node group)) hw'
    refine ⟨.inr hmove, _, ⟨h.good w hw' group, hf⟩, ?_, ?_⟩
    · intro A hA
      exact mem_append_left _ hA
    · exact h.stable _ _ _ _ hw' hmove (h.now w group hw')
  intro _
  apply Spec.bind (h.spec_interfere (hstable a))
  intro _
  exact Spec.ret fun _ _ hw => hw

structure Listed (c : Cluster) (Obs : Nat → GroupStorage → World → Prop) (w : World)
    (e : Nat × DigestCell) : Prop where
  intro ::
  bound : e.1 < 256 ^ pidSize
  seen : ∃ g, GoodGroup c (c.groupFor e.1) g ∧ Obs (c.groupFor e.1) g w ∧
    e.2 = setCell (g.counted (rootRef e.1)) ∧ g.counted (rootRef e.1) ∈ w.folds

def Vacant (c : Cluster) (Obs : Nat → GroupStorage → World → Prop) (w : World) (pid : Nat) : Prop :=
  ∃ g, Obs (c.groupFor pid) g w ∧ g.counted (rootRef pid) = ∅

structure RootsListed (c : Cluster) (Obs : Nat → GroupStorage → World → Prop)
    (after next : Option Nat) (roots : List (Nat × DigestCell)) (w : World) : Prop where
  sorted : roots.Pairwise fun a b => a.1 < b.1
  above : ∀ e ∈ roots, ∀ a ∈ after, a < e.1
  listed : ∀ e ∈ roots, Listed c Obs w e
  covered : ∀ pid, pid < 256 ^ pidSize → c.groupFor pid < c.partitioner.totalGroups →
    (∀ a ∈ after, a < pid) → (∀ b ∈ next, pid ≤ b) →
    pid ∈ roots.map Prod.fst ∨ Vacant c Obs w pid

structure Walk (c : Cluster) (Obs : Nat → GroupStorage → World → Prop) (after : Option Nat)
    (group : Nat) (roots : List (Nat × DigestCell)) (cursor : Option Nat) (w : World) : Prop where
  sorted : roots.Pairwise fun a b => a.1 < b.1
  above : ∀ e ∈ roots, ∀ a ∈ after, a < e.1
  passed : ∀ a ∈ after, ∃ b ∈ cursor, a ≤ b
  listed : ∀ e ∈ roots, Listed c Obs w e
  below : ∀ e ∈ roots, ∃ b ∈ cursor, e.1 ≤ b
  behind : ∀ b ∈ cursor, b ∈ after ∨ c.groupFor b ≤ group
  last : ∀ e ∈ roots.getLast?, cursor = some e.1
  covered : ∀ pid, pid < 256 ^ pidSize → (∀ a ∈ after, a < pid) →
    (c.groupFor pid < group ∨ ∃ b ∈ cursor, pid ≤ b) →
    pid ∈ roots.map Prod.fst ∨ Vacant c Obs w pid

section

variable (h : Watch P c node Obs)

include h

theorem stable_listed (e : Nat × DigestCell) : P.Stable fun w => Listed c Obs w e := by
  intro w w' hw hm ⟨hb, g, hg, hobs, hcell, hfold⟩
  exact ⟨hb, g, hg, h.stable _ g w w' hw hm hobs, hcell, h.folded _ w w' hw hm hfold⟩

theorem stable_vacant (pid : Nat) : P.Stable fun w => Vacant c Obs w pid :=
  Stable.exists fun g => (h.stable _ g).and (Stable.const _)

theorem stable_walk : P.Stable (Walk c Obs after group roots cursor) := by
  intro w w' hw hm hwalk
  refine ⟨hwalk.sorted, hwalk.above, hwalk.passed, ?_, hwalk.below, hwalk.behind, hwalk.last, ?_⟩
  · intro e he
    exact stable_listed h e w w' hw hm (hwalk.listed e he)
  · intro pid hp ha hc
    exact (hwalk.covered pid hp ha hc).imp id (stable_vacant h pid w w' hw hm)

theorem stable_rootsListed {next : Option Nat} : P.Stable (RootsListed c Obs after next roots) := by
  intro w w' hw hm hroots
  refine ⟨hroots.sorted, hroots.above, ?_, ?_⟩
  · intro e he
    exact stable_listed h e w w' hw hm (hroots.listed e he)
  · intro pid hp hgroup ha hb
    exact (hroots.covered pid hp hgroup ha hb).imp id (stable_vacant h pid w w' hw hm)

end

theorem walk_start (after : Option Nat) (w : World) :
    Walk c Obs after ((after.map fun a => c.groupFor (a + 1)).getD 0) [] after w := by
  refine ⟨List.Pairwise.nil, nofun, fun a ha => ⟨a, ha, le_rfl⟩, nofun, nofun, fun b hb => .inl hb, nofun, ?_⟩
  intro pid _ ha hc
  exfalso
  cases after with
  | none =>
    rcases hc with hlt | ⟨b, hb, _⟩
    · exact Nat.not_lt_zero _ hlt
    · cases hb
  | some a =>
    have hgt : a < pid := ha a rfl
    rcases hc with hlt | ⟨b, hb, hle⟩
    · have hmono : c.groupFor (a + 1) ≤ c.groupFor pid := c.partitioner.groupFor_mono hgt
      exact absurd hlt (not_lt.mpr hmono)
    · cases hb
      exact absurd hle (not_le.mpr hgt)

theorem group_of_page {g : GroupStorage} (hg : GoodGroup c group g) {more : Option Nat}
    {page : List (Nat × DigestCell)} (hpage : CellPage g rootRef (256 ^ pidSize) cursor page more)
    (he : e ∈ page) : c.groupFor e.1 = group := by
  obtain ⟨hb, hcell, hne⟩ := hpage.listed e he
  rw [hcell] at hne
  obtain ⟨k, hheld, href⟩ := exists_of_foldAt_ne_zero hg.toSound hne
  rw [← (mem_cellRefs_root (hg.toSound.encodable_of_held hheld) hb).mp href]
  exact hg.placed k hheld

section Page

variable {after cursor more : Option Nat} {group : Nat} {roots page : List (Nat × DigestCell)} {w : World}
  {g : GroupStorage} (hwalk : Walk c Obs after group roots cursor w) (hg : GoodGroup c group g)
  (hobs : Obs group g w)

include hwalk hg hobs

theorem page_covered (hpage : CellPage g rootRef (256 ^ pidSize) cursor page more) {pid : Nat}
    (hp : pid < 256 ^ pidSize) (ha : ∀ a ∈ after, a < pid) (hgroup : c.groupFor pid ≤ group)
    (hm : ∀ b ∈ more, pid ≤ b) : pid ∈ (roots ++ page).map Prod.fst ∨ Vacant c Obs w pid := by
  have hold (h : pid ∈ roots.map Prod.fst ∨ Vacant c Obs w pid) :
      pid ∈ (roots ++ page).map Prod.fst ∨ Vacant c Obs w pid := by
    rw [map_append]
    exact h.imp (mem_append_left _) id
  rcases hgroup.lt_or_eq with hlt | heq
  · exact hold (hwalk.covered pid hp ha (.inl hlt))
  by_cases hbehind : ∃ b ∈ cursor, pid ≤ b
  · exact hold (hwalk.covered pid hp ha (.inr hbehind))
  have habove (b : Nat) (hb : b ∈ cursor) : b < pid := by
    by_contra hle
    exact hbehind ⟨b, hb, not_lt.mp hle⟩
  by_cases hz : foldAt g.tags (rootRef pid) = 0
  · right
    rw [foldAt_eq_setCell hg.toSound] at hz
    exact ⟨g, by rwa [heq], setCell_eq_zero hz⟩
  · left
    rw [map_append]
    exact mem_append_right _ (hpage.found pid hp habove hm hz)

theorem walk_page (hpage : CellPage g rootRef (256 ^ pidSize) cursor page more)
    (hfold : ∀ A, A ∈ (page.map fun e => g.counted (rootRef e.1)) → A ∈ w.folds) :
    Walk c Obs after group (roots ++ page) ((page.getLast?.map Prod.fst).or cursor) w := by
  have hcross (e : Nat × DigestCell) (he : e ∈ roots) (x : Nat × DigestCell) (hx : x ∈ page) :
      e.1 < x.1 := by
    obtain ⟨b, hb, hle⟩ := hwalk.below e he
    exact hle.trans_lt ((hpage.range x hx).1 b hb)
  have hsorted : (roots ++ page).Pairwise fun a b => a.1 < b.1 :=
    pairwise_append.mpr ⟨hwalk.sorted, hpage.sorted, hcross⟩
  have habove (e : Nat × DigestCell) (he : e ∈ roots ++ page) (a : Nat) (ha : a ∈ after) : a < e.1 := by
    rcases mem_append.mp he with he | he
    · exact hwalk.above e he a ha
    · obtain ⟨b, hb, hle⟩ := hwalk.passed a ha
      exact hle.trans_lt ((hpage.range e he).1 b hb)
  have hlisted (e : Nat × DigestCell) (he : e ∈ roots ++ page) : Listed c Obs w e := by
    rcases mem_append.mp he with he | he
    · exact hwalk.listed e he
    · have hgroup := group_of_page hg hpage he
      refine ⟨(hpage.listed e he).1, g, by rwa [hgroup], by rwa [hgroup], ?_, hfold _ (mem_map.mpr ⟨e, he, rfl⟩)⟩
      rw [(hpage.listed e he).2.1]
      exact foldAt_eq_setCell hg.toSound _
  rcases eq_nil_or_concat page with rfl | ⟨init, l, rfl⟩
  · rw [append_nil]
    exact hwalk
  rw [concat_eq_append] at *
  have hl : l ∈ init ++ [l] := mem_append_right _ (mem_singleton_self l)
  have hgroup := group_of_page hg hpage hl
  rw [getLast?_append_of_ne_nil _ (cons_ne_nil _ _), getLast?_singleton, Option.map_some, Option.some_or]
  refine ⟨hsorted, habove, fun a ha => ⟨l.1, rfl, (habove l (mem_append_right _ hl) a ha).le⟩, hlisted,
    ?_, ?_, ?_, ?_⟩
  · intro e he
    refine ⟨l.1, rfl, ?_⟩
    rcases mem_append.mp he with he | he
    · exact (hcross e he l hl).le
    · exact last_of_sorted hpage.sorted he
  · intro b hb
    cases hb
    exact .inr hgroup.le
  · intro e he
    rw [← append_assoc, getLast?_concat] at he
    cases he
    rfl
  · intro pid hp ha hc
    have hle : c.groupFor pid ≤ group := by
      rcases hc with hlt | ⟨b, hb, hpb⟩
      · exact hlt.le
      · cases hb
        rw [← hgroup]
        exact c.partitioner.groupFor_mono hpb
    rcases hc with hlt | ⟨b, hb, hpb⟩
    · rw [map_append]
      exact (hwalk.covered pid hp ha (.inl hlt)).imp (mem_append_left _) id
    · cases hb
      apply page_covered hwalk hg hobs hpage hp ha hle
      intro m hm
      exact hpb.trans ((hpage.range l hl).2 m hm)

theorem walk_next (hpage : CellPage g rootRef (256 ^ pidSize) cursor page none)
    (hfold : ∀ A, A ∈ (page.map fun e => g.counted (rootRef e.1)) → A ∈ w.folds) :
    Walk c Obs after (group + 1) (roots ++ page) ((page.getLast?.map Prod.fst).or cursor) w := by
  have hnow := walk_page hwalk hg hobs hpage hfold
  refine ⟨hnow.sorted, hnow.above, hnow.passed, hnow.listed, hnow.below, ?_, hnow.last, ?_⟩
  · intro b hb
    exact (hnow.behind b hb).imp id Nat.le_succ_of_le
  · intro pid hp ha hc
    rcases hc with hlt | hb
    · exact page_covered hwalk hg hobs hpage hp ha (Nat.le_of_lt_succ hlt) nofun
    · exact hnow.covered pid hp ha (.inr hb)

end Page

theorem Walk.ended (h : Walk c Obs after group roots cursor w) (hgroup : c.partitioner.totalGroups ≤ group) :
    RootsListed c Obs after none roots w := by
  refine ⟨h.sorted, h.above, h.listed, ?_⟩
  intro pid hp hpg ha _
  exact h.covered pid hp ha (.inl (hpg.trans_le hgroup))

theorem Walk.stopped (h : Walk c Obs after group roots cursor w) (he : roots.getLast? = some e) :
    RootsListed c Obs after (some e.1) roots w := by
  refine ⟨h.sorted, h.above, h.listed, ?_⟩
  intro pid hp _ ha hb
  exact h.covered pid hp ha (.inr ⟨e.1, h.last e he, hb e.1 rfl⟩)

theorem spec_rootPage (h : Watch P c node Obs) (after : Option Nat) (limit : Nat) :
    P.Spec (fun _ => True) (LocalStore.rootPage c node after limit)
      fun r w => RootsListed c Obs after r.2 r.1 w := by
  refine (Spec.iterate (I := fun b w => Walk c Obs after b.1 b.2.1 b.2.2 w) ?_ _ _).pre
    fun w _ _ => walk_start after w
  rintro ⟨group, roots, cursor⟩
  dsimp only
  split
  · rename_i hgroup
    exact Spec.ret fun w _ hwalk => hwalk.ended hgroup
  split
  · rename_i hroom
    apply Spec.seq (stable_walk h) (h.spec_foldSession group _ _).anywhere
    rintro ⟨page, more⟩
    cases more with
    | some m =>
      apply Spec.ret
      rintro w _ ⟨hwalk, g, ⟨hg, hpage⟩, hfold, hobs⟩
      exact walk_page hwalk hg hobs (rootPage_cells hg.toClean hpage) hfold
    | none =>
      dsimp only
      rw [if_pos Option.isNone_none]
      split
      · rename_i hlen
        apply Spec.ret
        rintro w _ ⟨hwalk, g, ⟨hg, hpage⟩, hfold, hobs⟩
        have hnow := walk_page hwalk hg hobs (rootPage_cells hg.toClean hpage) hfold
        have hne : roots ++ page ≠ [] := ne_nil_of_length_pos ((Nat.zero_le _).trans_lt (hroom.trans_le hlen))
        have he := getLast?_eq_getLast_of_ne_nil hne
        dsimp only [Sum.elim_inr]
        rw [he]
        exact hnow.stopped he
      · apply Spec.ret
        rintro w _ ⟨hwalk, g, ⟨hg, hpage⟩, hfold, hobs⟩
        exact walk_next hwalk hg hobs (rootPage_cells hg.toClean hpage) hfold
  · split
    · exact Spec.raise
    · rename_i e he
      exact Spec.ret fun w _ hwalk => hwalk.stopped he

end Watch

end Tourillon
