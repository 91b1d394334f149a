import Tourillon.AntiEntropy.ObligationQueue
import Tourillon.AntiEntropy.Reconcile

namespace Tourillon

open Endian Exceptional Sequence GroupStorage List ObligationKey

variable {obligations page : List ObligationKey} {ob : ObligationKey} {g : GroupStorage}
  {after next : Option Bytes} {limit : Nat}

theorem mem_deliveryOrder {ordered : List ObligationKey} (h : deliveryOrder obligations = .ok ordered)
    (hob : ob ∈ obligations) : ob ∈ ordered := by
  simp only [deliveryOrder, bind_eq_ok, pure_eq_ok] at h
  obtain ⟨keyed, hkeyed, rfl⟩ := h
  obtain ⟨pair, hpair, hmake⟩ := exists_of_mem_mapM hkeyed hob
  simp only [bind_eq_ok, pure_eq_ok] at hmake
  obtain ⟨raw, _, rfl⟩ := hmake
  exact mem_map.mpr ⟨(ob, raw), (mem_insertionSort _).mpr hpair, rfl⟩

theorem obligationChunks_complete {records : List (Key × Record)} {maxBytes : Nat}
    {chunks : List (List ObligationKey)} (h : obligationChunks obligations records maxBytes = .ok chunks)
    (hob : ob ∈ obligations) : ob ∈ chunks.flatten := by
  simp only [obligationChunks, bind_eq_ok, pure_eq_ok] at h
  obtain ⟨keyed, hkeyed, costed, hcosted, rfl⟩ := h
  have hcosts : ob ∈ costed.flatMap Prod.snd := by
    obtain ⟨pair, hpair, hmake⟩ := exists_of_mem_mapM hkeyed hob
    simp only [bind_eq_ok, pure_eq_ok] at hmake
    obtain ⟨r, _, rfl⟩ := hmake
    obtain ⟨debts, hdebts, hin⟩ := exists_mem_gather hpair
    obtain ⟨e, he, hcost⟩ := exists_of_mem_mapM hcosted hdebts
    simp only [bind_eq_ok, pure_eq_ok] at hcost
    obtain ⟨cost, _, rfl⟩ := hcost
    exact mem_flatMap.mpr ⟨(cost, debts), he, hin⟩
  have hflat := foldl_chunks maxBytes costed {}
  split
  · rename_i hempty
    rw [hempty, append_nil] at hflat
    rw [hflat]
    exact hcosts
  · rw [flatten_append, flatten_singleton, hflat]
    exact hcosts

theorem prefix_obligation (o : ObligationKey) : obligationPrefix <+: o.encode := by
  rw [encode, targetPrefix, cons_append]
  exact ⟨_, rfl⟩

theorem obligationPage_complete (h : g.obligationPage after limit = .ok (page, next))
    (hafter : ∀ b ∈ after, obligationPrefix <+: b) {o : ObligationKey} (ho : g.Owes o)
    (hahead : ∀ b ∈ after, b < o.encode) : o ∈ page ∨ ∃ b ∈ next, b < o.encode := by
  unfold obligationPage at h
  split at h
  · cases h
  · rename_i hlimit
    cases h
    have hpage : ∃ start, g.list .metadata (some obligationPrefix) after limit =
        g.list .metadata (some obligationPrefix) (some start) limit ∧ obligationPrefix <+: start ∧
        start < o.encode := by
      cases after with
      | none =>
        refine ⟨obligationPrefix, rfl, prefix_refl _, ?_⟩
        rw [encode, targetPrefix, cons_append]
        refine self_lt_append ?_
        simp [toBE]
      | some start => exact ⟨start, rfl, hafter start rfl, hahead start rfl⟩
    obtain ⟨start, hlist, hpre, hlt⟩ := hpage
    have hp := list_page g .metadata hpre (Nat.le_of_not_lt hlimit)
    rw [← hlist] at hp
    obtain ⟨henc, hsome⟩ := ho
    obtain ⟨value, hvalue⟩ := Option.isSome_iff_exists.mp hsome
    have hentry : (o.encode, value) ∈ g.metadata.entries := OrderedMap.get_eq_some.mp hvalue
    by_cases hend : ∀ b ∈ pageCursor
        (g.list .metadata (some obligationPrefix) after limit) limit, o.encode ≤ b
    · left
      have hin := (hp.mem (o.encode, value)).mpr ⟨hentry, hlt, prefix_obligation o, hend⟩
      refine mem_filterMap.mpr ⟨_, hin, ?_⟩
      rw [fromBytes_encode henc]
      rfl
    · right
      push Not at hend
      exact hend

theorem obligationPage_cursor (h : g.obligationPage after limit = .ok (page, next)) :
    ∀ b ∈ next, obligationPrefix <+: b := by
  unfold obligationPage at h
  split at h
  · cases h
  · cases h
    intro b hb
    split at hb
    · obtain ⟨e, he, rfl⟩ := Option.map_eq_some_iff.mp hb
      have hstarts := (mem_list (mem_of_getLast? he)).2
      simpa [startsWith] using hstarts
    · cases hb

namespace Errand

def remaining (batch : List ObligationKey) : Errand → List ObligationKey
  | .fetching _ => batch
  | .contacting _ rest obsolete => rest.flatMap Prod.snd ++ obsolete
  | .pushing chunks _ rest obsolete => chunks.flatten ++ (rest.flatMap Prod.snd ++ obsolete)
  | .removing runs chunks _ rest obsolete =>
    runs.flatMap Prod.snd ++ (chunks.flatten ++ (rest.flatMap Prod.snd ++ obsolete))
  | .dropping runs => runs.flatMap Prod.snd

def runs : Errand → List (Nat × List ObligationKey)
  | .removing runs _ _ _ _ => runs
  | .dropping runs => runs
  | _ => []

end Errand

namespace DeliveryLoop

variable {l : DeliveryLoop} (batch : List ObligationKey) {obligations : List ObligationKey} {o : ObligationKey}

def Routed (l : DeliveryLoop) (runs : List (Nat × List ObligationKey)) : Prop :=
  ∀ run ∈ runs, ∀ o ∈ run.2, l.groupFor o.key.pid = run.1

theorem routed_removalRuns (obligations : List ObligationKey) : l.Routed (l.removalRuns obligations) :=
  fun _ hrun _ ho => (mem_of_groupRuns hrun ho).2

theorem mem_removalRuns : o ∈ (l.removalRuns obligations).flatMap Prod.snd ↔ o ∈ obligations := by
  rw [removalRuns, groupRuns_flatten, mem_insertionSort]

structure Awaits (l : DeliveryLoop) (batch pending : List ObligationKey) (next : Option Errand) :
    Prop where
  routed : ∀ errand, next = some errand → l.Routed errand.runs
  covers : ∀ o ∈ pending, ∃ errand, next = some errand ∧ o ∈ errand.remaining batch

theorem awaits_afterRest (records : List (Key × Record)) (rest : List (String × List ObligationKey))
    (obsolete : List ObligationKey) :
    l.Awaits batch (rest.flatMap Prod.snd ++ obsolete) (l.afterRest records rest obsolete) := by
  unfold afterRest
  split
  · refine ⟨?_, fun o ho => ⟨_, rfl, ho⟩⟩
    rintro errand ⟨⟩
    nofun
  · rename_i hrest
    rw [not_not] at hrest
    rw [hrest]
    split
    · refine ⟨?_, fun o ho => ⟨_, rfl, mem_removalRuns.mpr ho⟩⟩
      rintro errand ⟨⟩
      exact routed_removalRuns obsolete
    · rename_i hobsolete
      rw [not_not] at hobsolete
      rw [hobsolete]
      exact ⟨nofun, nofun⟩

theorem awaits_afterChunks (chunks : List (List ObligationKey)) (records : List (Key × Record))
    (rest : List (String × List ObligationKey)) (obsolete : List ObligationKey) :
    l.Awaits batch (chunks.flatten ++ (rest.flatMap Prod.snd ++ obsolete))
      (l.afterChunks chunks records rest obsolete) := by
  unfold afterChunks
  split
  · refine ⟨?_, fun o ho => ⟨_, rfl, ho⟩⟩
    rintro errand ⟨⟩
    nofun
  · rename_i hchunks
    rw [not_not] at hchunks
    rw [hchunks]
    exact awaits_afterRest batch records rest obsolete

theorem awaits_afterRuns {runs : List (Nat × List ObligationKey)} (hruns : l.Routed runs)
    (chunks : List (List ObligationKey)) (records : List (Key × Record))
    (rest : List (String × List ObligationKey)) (obsolete : List ObligationKey) :
    l.Awaits batch (runs.flatMap Prod.snd ++ (chunks.flatten ++ (rest.flatMap Prod.snd ++ obsolete)))
      (l.afterRuns runs chunks records rest obsolete) := by
  unfold afterRuns
  split
  · refine ⟨?_, fun o ho => ⟨_, rfl, ho⟩⟩
    rintro errand ⟨⟩
    exact hruns
  · rename_i hempty
    rw [not_not] at hempty
    rw [hempty]
    exact awaits_afterChunks batch chunks records rest obsolete

theorem mem_chunksFor {records : List (Key × Record)} {chunks : List (List ObligationKey)}
    (h : l.chunksFor obligations records = .ok chunks) (ho : o ∈ obligations) : o ∈ chunks.flatten := by
  simp only [chunksFor, bind_eq_ok, pure_eq_ok] at h
  obtain ⟨found, hfound, rfl⟩ := h
  rw [← groupRuns_flatten (fun ob => ob.key.pid) obligations] at ho
  obtain ⟨run, hrun, hin⟩ := mem_flatMap.mp ho
  obtain ⟨cs, hcs, hmake⟩ := exists_of_mem_mapM hfound hrun
  obtain ⟨chunk, hchunk, hmem⟩ := mem_flatten.mp (obligationChunks_complete hmake hin)
  exact mem_flatten.mpr ⟨chunk, mem_flatten.mpr ⟨cs, hcs, hchunk⟩, hmem⟩

end DeliveryLoop

namespace Dispatcher

variable {l : DeliveryLoop} {s s' : Dispatcher}

def Pursues (worker : Option WorkerStage) (group : Nat) (o : ObligationKey) : Prop :=
  match worker with
  | some (.delivering batch errand) => o ∈ errand.remaining batch
  | some (.reloading current after found pending) =>
    (found || pending) = true ∨ current < group ∨ group = current ∧ ∀ b ∈ after, b < o.encode
  | _ => False

def Accounted (s : Dispatcher) (group : Nat) (o : ObligationKey) : Prop :=
  s.queue.Holds o ∨ Pursues s.worker group o

structure Orderly (l : DeliveryLoop) (worker : Option WorkerStage) : Prop where
  routed : ∀ batch errand, worker = some (.delivering batch errand) → l.Routed errand.runs
  cursor : ∀ group after found pending, worker = some (.reloading group after found pending) →
    ∀ b ∈ after, obligationPrefix <+: b

structure Tracked [Blake2b] (l : DeliveryLoop) (s : Dispatcher) : Prop where
  clean : ∀ i, Clean (s.groups i)
  placed : ∀ i o, (s.groups i).Owes o →
    i = l.groupFor o.key.pid ∧ i < l.partitioner.totalGroups
  orderly : Orderly l s.worker
  accounted : ∀ i o, (s.groups i).Owes o → s.announced o = true → s.Accounted i o

theorem orderly_idle {worker : Option WorkerStage} (hd : ∀ batch errand, worker ≠ some (.delivering batch errand))
    (hr : ∀ group after found pending, worker ≠ some (.reloading group after found pending)) :
    Orderly l worker where
  routed batch errand h := absurd h (hd batch errand)
  cursor group after found pending h := absurd h (hr group after found pending)

section Transactions

variable [Blake2b] {batch : List ObligationKey} {group : Nat} {pending obsolete : List ObligationKey}
  {next : Option Errand} {records : List (Key × Record)} {rest : List (String × List ObligationKey)}
  (h : Tracked l s)

include h

namespace Tracked

theorem goes (hgroups : s'.groups = s.groups) (hannounced : s'.announced = s.announced)
    (horderly : Orderly l s'.worker)
    (haccounted : ∀ i o, (s.groups i).Owes o → s.announced o = true → s.Accounted i o → s'.Accounted i o) :
    Tracked l s' := by
  refine ⟨?_, ?_, horderly, ?_⟩
  · rw [hgroups]
    exact h.clean
  · rw [hgroups]
    exact h.placed
  · rw [hgroups, hannounced]
    exact fun i o ho ha => haccounted i o ho ha (h.accounted i o ho ha)

theorem shrinks {g : GroupStorage} (hclean : Clean g)
    (howes : ∀ o, g.Owes o → (s.groups group).Owes o) : Tracked l (s.withGroup group g) := by
  have hold (i : Nat) (o : ObligationKey) (ho : ((s.withGroup group g).groups i).Owes o) :
      (s.groups i).Owes o := by
    unfold withGroup at ho
    dsimp only at ho
    split at ho
    · rename_i heq
      rw [heq]
      exact howes o ho
    · exact ho
  refine ⟨?_, fun i o ho => h.placed i o (hold i o ho), h.orderly,
    fun i o ho ha => h.accounted i o (hold i o ho) ha⟩
  intro i
  unfold withGroup
  dsimp only
  split
  · exact hclean
  · exact h.clean i

theorem fails : Tracked l s.fail := by
  unfold fail
  split
  · exact h.goes rfl rfl (orderly_idle nofun nofun) fun _ _ _ _ _ => .inl (.inr rfl)
  · exact h.goes rfl rfl (orderly_idle nofun nofun) fun _ _ _ _ _ => .inl (.inr rfl)
  · exact h

theorem raises : Tracked l s.raiseBacklog := h.goes rfl rfl h.orderly fun _ _ _ _ _ => .inl (.inr rfl)

theorem continues (hnext : l.Awaits batch pending next)
    (hcovers : ∀ i o, (s.groups i).Owes o → s.announced o = true → s.Accounted i o →
      s.queue.Holds o ∨ o ∈ pending) : Tracked l (s.continueWith batch next) := by
  cases next with
  | none =>
    refine h.goes rfl rfl (orderly_idle nofun nofun) ?_
    intro i o ho ha hacc
    rcases hcovers i o ho ha hacc with hheld | hpending
    · exact .inl hheld
    · obtain ⟨errand, hnone, _⟩ := hnext.covers o hpending
      cases hnone
  | some errand =>
    refine h.goes rfl rfl ⟨?_, nofun⟩ ?_
    · rintro batch' errand' ⟨⟩
      exact hnext.routed errand rfl
    · intro i o ho ha hacc
      rcases hcovers i o ho ha hacc with hheld | hpending
      · exact .inl hheld
      · obtain ⟨errand', ⟨⟩, hin⟩ := hnext.covers o hpending
        exact .inr hin

theorem forgets (faults : Faults) (run : Nat × List ObligationKey) :
    Tracked l (s.withGroup run.1 (forgetObligations faults run.2 (s.groups run.1)).2) := by
  obtain ⟨hclean, hcases⟩ := forgetObligations_spec faults run.2 (h.clean run.1)
  refine h.shrinks hclean ?_
  intro o ho
  rcases hcases with ⟨e, herror⟩ | ⟨_, hforgot⟩
  · rw [herror] at ho
    exact ho
  · exact ((hforgot.owes o).mp ho).1

theorem persists {record : Record} (hr : Storable record) (targets : List String) (faults : Faults)
    (hgroup : l.groupFor record.key.pid < l.partitioner.totalGroups) {obligations : List ObligationKey}
    (hadded : Added l.node [record] obligations (s.groups (l.groupFor record.key.pid))
      (oblige faults l.node record targets (s.groups (l.groupFor record.key.pid))).2) :
    Tracked l { s.withGroup (l.groupFor record.key.pid)
        (oblige faults l.node record targets (s.groups (l.groupFor record.key.pid))).2 with
      announced := fun o => s.announced o &&
        (o ∉ obligations || (s.groups (l.groupFor record.key.pid)).Owes o) } := by
  have hclean := (oblige_spec faults l.node targets (h.clean (l.groupFor record.key.pid)) hr).1
  have hcases (i : Nat) (o : ObligationKey)
      (ho : ((s.withGroup (l.groupFor record.key.pid)
        (oblige faults l.node record targets (s.groups (l.groupFor record.key.pid))).2).groups i).Owes o) :
      (s.groups i).Owes o ∨ (o ∈ obligations ∧ i = l.groupFor record.key.pid) := by
    unfold withGroup at ho
    dsimp only at ho
    split at ho
    · rename_i heq
      rw [heq]
      exact ((hadded.owes o).mp ho).imp_right fun hin => ⟨hin, rfl⟩
    · exact .inl ho
  refine ⟨?_, ?_, h.orderly, ?_⟩
  · intro i
    unfold withGroup
    dsimp only
    split
    · exact hclean
    · exact h.clean i
  · intro i o ho
    rcases hcases i o ho with hold | ⟨hnew, rfl⟩
    · exact h.placed i o hold
    · obtain ⟨_, r, hrm, hkey⟩ := hadded.foreign o hnew
      rw [mem_singleton.mp hrm] at hkey
      exact ⟨by rw [hkey], hgroup⟩
  · intro i o ho ha
    simp only [Bool.and_eq_true, Bool.or_eq_true, decide_eq_true_iff] at ha
    rcases hcases i o ho with hold | ⟨hnew, rfl⟩
    · exact h.accounted i o hold ha.1
    · exact h.accounted _ o (ha.2.resolve_left (not_not.mpr hnew)) ha.1

theorem resumes (hw : s.worker = some .looping) (view : ReplicaView) : Tracked l (s.resume l view) := by
  have hheld (i : Nat) (o : ObligationKey) (hacc : s.Accounted i o) : s.queue.Holds o := by
    rw [Accounted, hw] at hacc
    exact hacc.resolve_right id
  unfold resume
  split
  · refine h.goes rfl rfl ⟨?_, by rintro _ _ _ _ ⟨⟩⟩ ?_
    · rintro batch errand ⟨⟩
      rintro _ ⟨⟩
    · intro i o _ _ hacc
      rcases hheld i o hacc with hitem | hbacklog
      · rw [← take_append_drop l.batch s.queue.items] at hitem
        rcases mem_append.mp hitem with htaken | hleft
        · exact .inr htaken
        · exact .inl (.inl hleft)
      · exact .inl (.inr hbacklog)
  · split
    · refine h.goes rfl rfl ⟨by rintro _ _ ⟨⟩, ?_⟩ ?_
      · rintro group after found pending ⟨⟩
        rintro _ ⟨⟩
      · intro i o _ _ _
        rcases Nat.eq_zero_or_pos i with hzero | hpos
        · exact .inr (.inr (.inr ⟨hzero, by rintro _ ⟨⟩⟩))
        · exact .inr (.inr (.inl hpos))
    · exact h.goes rfl rfl (orderly_idle (by rintro _ _ ⟨⟩) (by rintro _ _ _ _ ⟨⟩)) fun i o _ _ hacc => .inl (hheld i o hacc)

theorem fetches {view : ReplicaView} (hw : s.worker = some (.delivering batch (.fetching view)))
    (records : List (Key × Record)) : Tracked l (s.fetched l batch view records) := by
  unfold fetched
  extract_lets owed obsolete s₁
  have hs₁ : Tracked l s₁ ∧ s₁.worker = s.worker ∧
      ((∃ ob ∈ owed, records.lookup ob.key = none) → s₁.queue.backlog = true) := by
    by_cases hmissing : ∃ ob ∈ owed, records.lookup ob.key = none
    · have heq : s₁ = s.raiseBacklog := if_pos hmissing
      rw [heq]
      exact ⟨h.raises, rfl, fun _ => rfl⟩
    · have heq : s₁ = s := if_neg hmissing
      rw [heq]
      exact ⟨h, rfl, fun hex => absurd hex hmissing⟩
  obtain ⟨h₁, hw₁, hbacklog⟩ := hs₁
  split
  · exact h₁.fails
  · rename_i ready hready
    refine h₁.continues (l.awaits_afterRest batch records _ obsolete) ?_
    intro i o _ _ hacc
    rw [Accounted, hw₁, hw] at hacc
    refine hacc.elim .inl fun hin => ?_
    have hbatch : o ∈ batch := hin
    by_cases howed : o ∈ owed
    · cases hlookup : records.lookup o.key with
      | none => exact .inl (.inr (hbacklog ⟨o, howed, hlookup⟩))
      | some r =>
        refine .inr (mem_append_left _ ?_)
        rw [groupRuns_flatten]
        refine mem_deliveryOrder hready (mem_filter.mpr ⟨howed, ?_⟩)
        rw [hlookup]
        rfl
    · exact .inr (mem_append_right _ (mem_filter.mpr ⟨hbatch, by simpa using howed⟩))

theorem contacts {target : String × List ObligationKey}
    (hw : s.worker = some (.delivering batch (.contacting records (target :: rest) obsolete)))
    (eligible : Bool) : Tracked l (s.contacted l batch target.2 records rest obsolete eligible) := by
  unfold contacted
  split
  · refine h.raises.continues (l.awaits_afterRest batch records rest obsolete) ?_
    exact fun _ _ _ _ _ => .inl (.inr rfl)
  · split
    · exact h.fails
    · rename_i chunks hchunks
      refine h.continues (l.awaits_afterChunks batch chunks records rest obsolete) ?_
      intro i o _ _ hacc
      rw [Accounted, hw] at hacc
      refine hacc.imp_right fun hin => ?_
      have hremaining : o ∈ target.2 ++ (rest.flatMap Prod.snd ++ obsolete) := by
        rw [← append_assoc]
        exact hin
      rcases mem_append.mp hremaining with htarget | hlater
      · exact mem_append_left _ (DeliveryLoop.mem_chunksFor hchunks htarget)
      · exact mem_append_right _ hlater

theorem pushes {chunk : List ObligationKey} {chunks : List (List ObligationKey)}
    (hw : s.worker = some (.delivering batch (.pushing (chunk :: chunks) records rest obsolete))) :
    Tracked l (s.continueWith batch (l.afterRuns (l.removalRuns chunk) chunks records rest obsolete)) ∧
      Tracked l (s.raiseBacklog.continueWith batch (l.afterRest records rest obsolete)) := by
  refine ⟨h.continues (l.awaits_afterRuns batch (DeliveryLoop.routed_removalRuns chunk) chunks records
    rest obsolete) ?_, h.raises.continues (l.awaits_afterRest batch records rest obsolete)
      fun _ _ _ _ _ => .inl (.inr rfl)⟩
  intro i o _ _ hacc
  rw [Accounted, hw] at hacc
  refine hacc.imp_right fun hin => ?_
  have hremaining : o ∈ chunk ++ (chunks.flatten ++ (rest.flatMap Prod.snd ++ obsolete)) := by
    rw [← append_assoc]
    exact hin
  rcases mem_append.mp hremaining with hchunk | hlater
  · exact mem_append_left _ (DeliveryLoop.mem_removalRuns.mpr hchunk)
  · exact mem_append_right _ hlater

theorem removes {errand : Errand} {run : Nat × List ObligationKey} (hw : s.worker = some (.delivering batch errand))
    (hremaining : ∀ o ∈ errand.remaining batch, o ∈ run.2 ∨ o ∈ pending)
    (hrun : ∀ o ∈ run.2, l.groupFor o.key.pid = run.1) (hnext : l.Awaits batch pending next) (faults : Faults) :
    Tracked l (s.removed batch run next faults) := by
  have hforgets := h.forgets faults run
  unfold removed
  obtain ⟨_, hcases⟩ := forgetObligations_spec faults run.2 (h.clean run.1)
  rcases hcases with ⟨e, herror⟩ | ⟨hok, hforgot⟩
  · rw [herror] at hforgets ⊢
    exact hforgets.fails
  · have hpair : forgetObligations faults run.2 (s.groups run.1) =
        (.ok (), (forgetObligations faults run.2 (s.groups run.1)).2) := Prod.ext hok rfl
    rw [hpair]
    refine hforgets.continues hnext ?_
    intro i o ho _ hacc
    rw [Accounted, show (s.withGroup run.1 _).worker = s.worker from rfl, hw] at hacc
    refine hacc.imp_right fun hin => ?_
    rcases hremaining o hin with hgone | hpending
    · exfalso
      obtain ⟨hplace, _⟩ := hforgets.placed i o ho
      rw [hrun o hgone] at hplace
      have hthere : ((s.withGroup run.1 (forgetObligations faults run.2 (s.groups run.1)).2).groups
          run.1).Owes o := hplace ▸ ho
      simp only [withGroup, if_true] at hthere
      exact ((hforgot.owes o).mp hthere).2 hgone
    · exact hpending

theorem pages {after : Option Bytes} {found pending : Bool}
    (hw : s.worker = some (.reloading group after found pending)) (deferred : String → Bool) :
    Tracked l (s.paged l group after found pending deferred) := by
  unfold paged
  split
  · exact h.fails
  · rename_i page next hpage
    extract_lets ready found' q
    have hcursor := obligationPage_cursor hpage
    have hcases (i : Nat) (o : ObligationKey) (ho : (s.groups i).Owes o) (hacc : s.Accounted i o) :
        q.Holds o ∨ (found' || pending) = true ∨ group < i ∨ i = group ∧ ∃ b ∈ next, b < o.encode := by
      rw [Accounted, hw] at hacc
      rcases hacc with hheld | hflag | hlater | ⟨rfl, hahead⟩
      · exact .inl (hheld.submit ready)
      · refine .inr (.inl ?_)
        rcases Bool.or_eq_true_iff.mp hflag with hfound | hpending
        · simp [found', hfound]
        · simp [hpending]
      · exact .inr (.inr (.inl hlater))
      · rcases obligationPage_complete hpage (h.orderly.cursor _ _ _ _ hw) ho hahead with hin | hbeyond
        · by_cases hdeferred : deferred o.target = true
          · refine .inr (.inl ?_)
            have hshort : ready.length < page.length := by
              refine length_filter_lt_length_iff_exists.mpr ⟨o, hin, ?_⟩
              simp [hdeferred]
            simp [found', hshort]
          · refine .inl (ObligationQueue.holds_submit (mem_filter.mpr ⟨hin, ?_⟩))
            simpa using hdeferred
        · exact .inr (.inr (.inr ⟨rfl, hbeyond⟩))
    have hidle (q' : ObligationQueue) : Orderly l (s.reloaded q').worker := by
      unfold reloaded
      dsimp only
      split <;> exact orderly_idle (by rintro _ _ ⟨⟩) (by rintro _ _ _ _ ⟨⟩)
    split
    · rename_i hmore
      refine h.goes rfl rfl ⟨by rintro _ _ ⟨⟩, ?_⟩ ?_
      · rintro group' after' found'' pending' ⟨⟩
        exact hcursor
      · intro i o ho _ hacc
        rcases hcases i o ho hacc with hheld | hflag | hlater | ⟨hgroup, b, hb, hlt⟩
        · exact .inl hheld
        · exact .inr (.inl hflag)
        · exact .inr (.inr (.inl hlater))
        · refine .inr (.inr (.inr ⟨hgroup, ?_⟩))
          intro b' hb'
          rw [Option.mem_unique hb' hb]
          exact hlt
    · rename_i hstop
      split
      · rename_i hbacklog
        exact h.goes rfl rfl (hidle q) fun _ _ _ _ _ => .inl (.inr hbacklog)
      · rename_i hbacklog
        have hnext : next = none := by
          by_contra hsome
          exact hstop ⟨hsome, Bool.eq_false_of_not_eq_true hbacklog⟩
        split
        · refine h.goes rfl rfl ⟨by rintro _ _ ⟨⟩, ?_⟩ ?_
          · rintro group' after' found'' pending' ⟨⟩
            rintro _ ⟨⟩
          · intro i o ho _ hacc
            rcases hcases i o ho hacc with hheld | hflag | hlater | ⟨_, b, hb, _⟩
            · exact .inl hheld
            · exact .inr (.inl (by simpa using hflag))
            · rcases Nat.lt_or_eq_of_le (Nat.succ_le_of_lt hlater) with hlt | heq
              · exact .inr (.inr (.inl hlt))
              · exact .inr (.inr (.inr ⟨heq.symm, by rintro _ ⟨⟩⟩))
            · rw [hnext] at hb
              cases hb
        · rename_i hlast
          refine h.goes rfl rfl (hidle _) ?_
          intro i o ho _ hacc
          rcases hcases i o ho hacc with hheld | hflag | hlater | ⟨_, b, hb, _⟩
          · rcases hheld with hitem | hflag
            · exact .inl (.inl hitem)
            · exact absurd hflag hbacklog
          · exact .inl (.inr hflag)
          · obtain ⟨_, hbound⟩ := h.placed i o ho
            omega
          · rw [hnext] at hb
            cases hb

end Tracked

end Transactions

end Dispatcher

end Tourillon
