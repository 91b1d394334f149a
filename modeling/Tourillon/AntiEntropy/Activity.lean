import Tourillon.AntiEntropy.Setting
import Tourillon.Store.Fleet

namespace Tourillon

inductive Activity where
  | write (node : String) (record : Record) (storable : Storable record) (faults : Faults)
  | oblige (node : String) (record : Record) (storable : Storable record) (targets : List String)
      (faults : Faults)
  | apply (node : String) (pid : Nat) (records : List Record) (storable : ∀ r ∈ records, Storable r)
      (faults : Faults)
  | collect (node : String) (group : Nat) (keys : List Key) (dryRun : Bool) (faults : Faults)
  | forget (node : String) (group : Nat) (obligations : List ObligationKey) (faults : Faults)
  | rearrange (sh : Shared)

namespace Activity

def forgetsAt : Activity → Option String
  | .forget node _ _ _ => some node
  | _ => none

variable [Blake2b] (d : Deployment)

def act (sh : Shared) : Activity → Shared
  | .write node record _ faults =>
    sh.withGroup node (d.partitioner.groupFor record.key.pid)
      (localWrite faults record (sh.storage node (d.partitioner.groupFor record.key.pid))).2
  | .oblige node record _ targets faults =>
    sh.withGroup node (d.partitioner.groupFor record.key.pid)
      (Tourillon.oblige faults node record targets (sh.storage node (d.partitioner.groupFor record.key.pid))).2
  | .apply node pid records _ faults =>
    if records.all fun r => r.key.pid = pid then
      sh.withGroup node (d.partitioner.groupFor pid)
        (applyRecords (d.policy node) faults records (sh.storage node (d.partitioner.groupFor pid))).2
    else sh
  | .collect node group keys dryRun faults =>
    sh.withGroup node group
      (collectBatch (d.policy node) faults keys dryRun (sh.storage node group)).2
  | .forget node group obligations faults =>
    sh.withGroup node group (forgetObligations faults obligations (sh.storage node group)).2
  | .rearrange sh' => { sh' with nodes := fun n => { sh'.nodes n with groups := (sh.nodes n).groups } }

end Activity

structure Wholesome [Blake2b] (sh : Shared) : Prop where
  clean : ∀ n i, Clean (sh.storage n i)
  foreign : ∀ n i o, (sh.storage n i).Owes o → o.target ≠ n

structure Carries [Blake2b] (sh sh' : Shared) : Prop where
  wholesome : Wholesome sh'
  reaches : ∀ n i addr ts, (sh.storage n i).Reaches addr ts → (sh'.storage n i).Reaches addr ts

structure Continues [Blake2b] (home : String) (sh sh' : Shared) : Prop extends Carries sh sh' where
  owes : ∀ i o, (sh.storage home i).Owes o → (sh'.storage home i).Owes o

def Arises [Blake2b] (d : Deployment) (sh : Shared) : Prop :=
  ∃ (blank : Shared) (acts : List Activity), (∀ n i, blank.storage n i = .empty) ∧
    sh = acts.foldl (Activity.act d) blank

variable [Blake2b] {d : Deployment} {home node : String} {group : Nat} {sh sh' sh'' : Shared}
  {p : RetentionPolicy} {S : List Record} {g : GroupStorage}

theorem Wholesome.carries (h : Wholesome sh) : Carries sh sh := ⟨h, fun _ _ _ _ hr => hr⟩

theorem Wholesome.continues (h : Wholesome sh) (home : String) : Continues home sh sh :=
  ⟨h.carries, fun _ _ ho => ho⟩

theorem Carries.trans (h : Carries sh sh') (h' : Carries sh' sh'') : Carries sh sh'' :=
  ⟨h'.wholesome, fun n i addr ts hr => h'.reaches n i addr ts (h.reaches n i addr ts hr)⟩

theorem Continues.trans (h : Continues home sh sh') (h' : Continues home sh' sh'') : Continues home sh sh'' :=
  ⟨h.toCarries.trans h'.toCarries, fun i o ho => h'.owes i o (h.owes i o ho)⟩

omit [Blake2b] in
theorem Effect.foreign {g' : GroupStorage} (h : Effect p node S g g')
    (hg : ∀ o, g.Owes o → o.target ≠ node) (o : ObligationKey) (ho : g'.Owes o) : o.target ≠ node := by
  cases h with
  | added records obligations known change =>
    rcases (change.owes o).mp ho with hold | hnew
    · exact hg o hold
    · exact (change.foreign o hnew).1
  | dropped keys change => exact hg o ((change.owes o).mp ho)
  | forgot obligations change => exact hg o ((change.owes o).mp ho).1

section

variable (h : Wholesome sh) (hclean : Clean g) (he : Effect p node S (sh.storage node group) g)

include h hclean he

theorem Wholesome.transacts : Carries sh (sh.withGroup node group g) := by
  refine ⟨⟨?_, ?_⟩, ?_⟩
  · intro n i
    rw [Shared.storage_withGroup]
    split
    · exact hclean
    · exact h.clean n i
  · intro n i
    rw [Shared.storage_withGroup]
    split
    · rename_i hw
      rw [hw.1]
      exact he.foreign (h.foreign node group)
    · exact h.foreign n i
  · intro n i addr ts
    rw [Shared.storage_withGroup]
    split
    · rename_i hw
      rw [hw.1, hw.2]
      exact he.reaches (h.clean node group).toHolding
    · exact id

theorem Wholesome.adds (ho : node = home → ∀ o, (sh.storage node group).Owes o → g.Owes o) :
    Continues home sh (sh.withGroup node group g) := by
  refine ⟨h.transacts hclean he, ?_⟩
  intro i o
  rw [Shared.storage_withGroup]
  split
  · rename_i hw
    rw [hw.1, hw.2]
    exact ho hw.1.symm o
  · exact id

end

theorem Wholesome.congr (h : Wholesome sh) (hs : ∀ n i, sh'.storage n i = sh.storage n i)
    (home : String) : Continues home sh sh' := by
  refine ⟨⟨⟨?_, ?_⟩, ?_⟩, ?_⟩
  · intro n i
    rw [hs]
    exact h.clean n i
  · intro n i
    rw [hs]
    exact h.foreign n i
  · intro n i addr ts
    rw [hs]
    exact id
  · intro i o
    rw [hs]
    exact id

omit [Blake2b] in
theorem Added.retains {records : List Record} {obligations : List ObligationKey} {g' : GroupStorage}
    (h : Added node records obligations g g') (o : ObligationKey) (ho : g.Owes o) : g'.Owes o :=
  (h.owes o).mpr (.inl ho)

section

variable (h : Wholesome sh)

include h

theorem Wholesome.act_transacts (a : Activity) :
    (∀ n i, (a.act d sh).storage n i = sh.storage n i) ∨ ∃ node group g S,
      a.act d sh = sh.withGroup node group g ∧ Clean g ∧ Effect (d.policy node) node S (sh.storage node group) g ∧
        (a.forgetsAt ≠ some node → ∀ o, (sh.storage node group).Owes o → g.Owes o) := by
  cases a with
  | write node record storable faults =>
    obtain ⟨hclean, hcases⟩ := localWrite_spec faults node
      (h.clean node (d.partitioner.groupFor record.key.pid)) storable
    refine .inr ⟨node, _, _, [record], rfl, hclean, ?_⟩
    rcases hcases with ⟨e, herror⟩ | ⟨_, hadded⟩
    · rw [herror]
      exact ⟨Effect.refl _ _ _ _, fun _ _ ho => ho⟩
    · exact ⟨.added [record] [] (fun r hr => hr) hadded, fun _ => hadded.retains⟩
  | oblige node record storable targets faults =>
    obtain ⟨hclean, hcases⟩ := oblige_spec faults node targets
      (h.clean node (d.partitioner.groupFor record.key.pid)) storable
    refine .inr ⟨node, _, _, [record], rfl, hclean, ?_⟩
    rcases hcases with ⟨e, herror⟩ | ⟨obligations, _, _, hadded⟩
    · rw [herror]
      exact ⟨Effect.refl _ _ _ _, fun _ _ ho => ho⟩
    · exact ⟨.added [record] obligations (fun r hr => hr) hadded, fun _ => hadded.retains⟩
  | apply node pid records storable faults =>
    by_cases hpid : records.all fun r => r.key.pid = pid
    · obtain ⟨hclean, hcases⟩ := applyRecords_spec (d.policy node) faults node
        (h.clean node (d.partitioner.groupFor pid)) storable
      refine .inr ⟨node, _, _, records, if_pos hpid, hclean, ?_⟩
      rcases hcases with ⟨e, herror⟩ | ⟨outcomes, selected, _, hsub, hadded⟩
      · rw [herror]
        exact ⟨Effect.refl _ _ _ _, fun _ _ ho => ho⟩
      · exact ⟨.added selected [] hsub hadded, fun _ => hadded.retains⟩
    · refine .inl fun n i => ?_
      rw [Activity.act, if_neg hpid]
  | collect node group keys dryRun faults =>
    obtain ⟨hclean, hcases⟩ := collectBatch_spec (d.policy node) faults keys dryRun (h.clean node group)
    refine .inr ⟨node, group, _, [], rfl, hclean, ?_⟩
    rcases hcases with ⟨e, herror⟩ | ⟨result, dropped, _, _, hdropped⟩
    · rw [herror]
      exact ⟨Effect.refl _ _ _ _, fun _ _ ho => ho⟩
    · exact ⟨.dropped dropped hdropped, fun _ o ho => (hdropped.owes o).mpr ho⟩
  | forget node group obligations faults =>
    obtain ⟨hclean, hcases⟩ := forgetObligations_spec faults obligations (h.clean node group)
    refine .inr ⟨node, group, _, [], rfl, hclean, ?_, fun hne => absurd rfl hne⟩
    rcases hcases with ⟨e, herror⟩ | ⟨_, hforgot⟩
    · rw [herror]
      exact Effect.refl _ _ _ _
    · exact .forgot obligations hforgot
  | rearrange sh' => exact .inl fun _ _ => rfl

theorem Wholesome.act (a : Activity) : Carries sh (a.act d sh) := by
  rcases h.act_transacts (d := d) a with hsame | ⟨node, group, g, S, hact, hclean, he, _⟩
  · exact (h.congr hsame "").toCarries
  · rw [hact]
    exact h.transacts hclean he

theorem Wholesome.act_elsewhere {a : Activity} (hne : a.forgetsAt ≠ some home) :
    Continues home sh (a.act d sh) := by
  rcases h.act_transacts (d := d) a with hsame | ⟨node, group, g, S, hact, hclean, he, ho⟩
  · exact h.congr hsame home
  · rw [hact]
    refine h.adds hclean he ?_
    rintro rfl
    exact ho hne

theorem Wholesome.acts_elsewhere {acts : List Activity} (hne : ∀ a ∈ acts, a.forgetsAt ≠ some home) :
    Continues home sh (acts.foldl (Activity.act d) sh) := by
  induction acts generalizing sh with
  | nil => exact h.continues home
  | cons a acts ih =>
    have hstep : Continues home sh (a.act d sh) := h.act_elsewhere (hne a List.mem_cons_self)
    exact hstep.trans (ih hstep.wholesome fun b hb => hne b (List.mem_cons_of_mem _ hb))

theorem Wholesome.acts (acts : List Activity) : Wholesome (acts.foldl (Activity.act d) sh) := by
  induction acts generalizing sh with
  | nil => exact h
  | cons a acts ih => exact ih (h.act a).wholesome

end

theorem wholesome_blank (h : ∀ n i, sh.storage n i = .empty) : Wholesome sh where
  clean n i := by
    rw [h]
    exact clean_empty
  foreign n i o ho := by
    rw [h] at ho
    cases ho.2

theorem Arises.wholesome (h : Arises d sh) : Wholesome sh := by
  obtain ⟨blank, acts, hblank, rfl⟩ := h
  exact (wholesome_blank hblank).acts acts

end Tourillon
