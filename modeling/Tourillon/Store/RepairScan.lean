import Tourillon.Store.Repair

namespace Tourillon

open Exceptional Scan List

variable {key : Key} {found : VersionLookup}

@[simp] theorem KeyTag.fromDict_toDict (i : KeyTag) : fromDict i.toDict = .ok i := by
  simp [fromDict, toDict, Payload.field, lookup_cons, bind, Except.bind, pure, Except.pure]

theorem VersionLookup.eq_of_fromDict {v v' : VersionLookup} (h : fromDict v.toDict = .ok v') : v' = v := by
  have hrecord : (v.exact.map Record.toDict).mapM Record.fromDict = .ok v.exact := by
    cases v.exact with
    | none => rfl
    | some r => simp [Option.mapM_some, Record.fromDict_toDict, Functor.map, Except.map]
  have hretained : (v.identities.map KeyTag.toDict).mapM KeyTag.fromDict = .ok v.identities := by
    rw [mapM_eq_ok, forall₂_map_left_iff]
    exact forall₂_same.mpr fun i _ => i.fromDict_toDict
  unfold fromDict at h
  split at h
  · cases h
  · simp only [toDict, hrecord, hretained, bind_eq_ok, pure_eq_ok] at h
    obtain ⟨_, ⟨⟩, _, ⟨⟩, rfl⟩ := h
    rfl

theorem lookupReply_ok {result : VersionLookup} (h : lookupReply key found = .ok result) : result = found := by
  simp only [lookupReply, bind_eq_ok] at h
  obtain ⟨v, hv, h⟩ := h
  split at h
  · cases h
  · split at h
    · cases h
    · rw [← Except.ok.inj h]
      exact VersionLookup.eq_of_fromDict hv

theorem RetentionPolicy.lookup_exact {p : RetentionPolicy} {g : GroupStorage} (h : p.lookup g key = .ok found) :
    g.read key = .ok found.exact := by
  simp only [RetentionPolicy.lookup, bind_eq_ok, pure_eq_ok] at h
  obtain ⟨_, _, exact, hread, _, _, _, _, rfl⟩ := h
  exact hread

def ScanAction.others : ScanAction → Option FleetAction
  | .other a => some a
  | .lookup _ _ => none

section Scans

variable [Blake2b] {d : Deployment} {node : String} {key : Key} {acts : List ScanAction} {s : Scan}
  {t : LookupTask} {target : String} {i : Nat}

theorem Scan.fleet_lookup (s : Scan) (i : Nat) (a : LookupAction) :
    (s.step d node key (.lookup i a)).fleet = s.fleet := by
  unfold step
  dsimp only
  split
  · rfl
  · rfl

theorem Scan.fleet_run (s : Scan) (acts : List ScanAction) :
    (s.run d node key acts).fleet = s.fleet.run d (acts.filterMap ScanAction.others) := by
  induction acts generalizing s with
  | nil => rfl
  | cons a acts ih =>
    refine (ih (s.step d node key a)).trans ?_
    cases a with
    | other a => rfl
    | lookup i a =>
      rw [fleet_lookup]
      rfl

theorem Scan.run_append (s : Scan) (pre rest : List ScanAction) :
    s.run d node key (pre ++ rest) = (s.run d node key pre).run d node key rest := foldl_append

abbrev Scan.Sometime (d : Deployment) (node : String) (key : Key) (s : Scan) (acts : List ScanAction)
    (P : Fleet → Prop) : Prop := Machine.Sometime (step d node key) s acts fun t => P t.fleet

def ReadAt (d : Deployment) (key : Key) (target : String) (found : VersionLookup) (f : Fleet) : Prop :=
  (f.storage target (d.partitioner.groupFor key.pid)).read key = .ok found.exact

structure Inspected (d : Deployment) (node : String) (key : Key) (s : Scan) (acts : List ScanAction)
    (name : String) (t : LookupTask) : Prop where
  target : t.target = name
  seen : ∀ found, t.seen = some found → s.Sometime d node key acts (ReadAt d key name found)
  answered : ∀ found, t.phase = .done (.ok found) →
    s.Sometime d node key acts (ReadAt d key name found)

theorem Inspected.later (h : Inspected d node key s acts target t) (rest : List ScanAction) :
    Inspected d node key s (acts ++ rest) target t :=
  ⟨h.target, fun found hf => (h.seen found hf).mono (prefix_append _ _) fun _ => id,
    fun found hf => (h.answered found hf).mono (prefix_append _ _) fun _ => id⟩

theorem Inspected.step (h : Inspected d node key s acts target t) (i : Nat) (a : LookupAction) :
    Inspected d node key s (acts ++ [.lookup i a]) target (t.step d node key (s.run d node key acts).fleet a) := by
  have hlater := h.later [.lookup i a]
  cases a with
  | serve =>
    unfold LookupTask.step
    dsimp only
    split
    · cases hlookup : (d.policy t.target).lookup ((s.run d node key acts).fleet.storage t.target
          (d.partitioner.groupFor key.pid)) key with
      | error e =>
        dsimp only
        split
        · exact ⟨hlater.target, hlater.seen, nofun⟩
        · exact hlater
      | ok found =>
        have hnow : s.Sometime d node key (acts ++ [.lookup i .serve]) (ReadAt d key target found) := by
          refine ⟨acts, prefix_append _ _, ?_⟩
          rw [h.target] at hlookup
          exact RetentionPolicy.lookup_exact hlookup
        dsimp only
        split
        · refine ⟨hlater.target, ?_, ?_⟩
          · rintro _ ⟨⟩
            exact hnow
          · rintro _ ⟨⟩
            exact hnow
        · refine ⟨hlater.target, ?_, hlater.answered⟩
          rintro _ ⟨⟩
          exact hnow
    · exact hlater
  | answer =>
    unfold LookupTask.step
    dsimp only
    split
    · rename_i found _ hseen
      refine ⟨hlater.target, hlater.seen, ?_⟩
      intro result hdone
      cases hreply : lookupReply key found with
      | error e =>
        rw [hreply] at hdone
        cases hdone
      | ok reply =>
        rw [hreply] at hdone
        cases hdone
        rw [lookupReply_ok hreply]
        exact hlater.seen found hseen
    · exact hlater
  | fail e =>
    unfold LookupTask.step
    dsimp only
    split
    · split
      · exact hlater
      · exact ⟨hlater.target, hlater.seen, nofun⟩
    · exact hlater

theorem inspected_run (f : Fleet) (fanout : List RepairTarget) (acts : List ScanAction)
    (ht : ((start f fanout).run d node key acts).tasks[i]? = some t) : ∃ e, fanout[i]? = some e ∧
      Inspected d node key (start f fanout) acts e.target t := by
  induction acts using reverseRecOn generalizing i t with
  | nil =>
    simp only [run, foldl_nil, start, getElem?_map, Option.map_eq_some_iff] at ht
    obtain ⟨e, he, rfl⟩ := ht
    exact ⟨e, he, rfl, nofun, nofun⟩
  | append_singleton acts a ih =>
    rw [run_append] at ht
    cases a with
    | other a =>
      obtain ⟨e, he, hinspected⟩ := ih (t := t) ht
      exact ⟨e, he, hinspected.later _⟩
    | lookup j a =>
      simp only [run, foldl_cons, foldl_nil] at ht ih
      unfold step at ht
      dsimp only at ht
      split at ht
      · rename_i u hu
        dsimp only at ht
        rw [getElem?_set] at ht
        split at ht
        · rename_i heq
          subst heq
          split at ht
          · cases ht
            obtain ⟨e, he, hinspected⟩ := ih hu
            exact ⟨e, he, hinspected.step j a⟩
          · cases ht
        · obtain ⟨e, he, hinspected⟩ := ih ht
          exact ⟨e, he, hinspected.later _⟩
      · obtain ⟨e, he, hinspected⟩ := ih ht
        exact ⟨e, he, hinspected.later _⟩

theorem outcome_read {f : Fleet} {fanout : List RepairTarget} {found : VersionLookup}
    (h : ((start f fanout).run d node key acts).outcome i = .ok found) : ∃ e, fanout[i]? = some e ∧
      (start f fanout).Sometime d node key acts (ReadAt d key e.target found) := by
  unfold outcome at h
  split at h
  · rename_i target seen result ht
    obtain ⟨e, he, hinspected⟩ := inspected_run f fanout acts ht
    exact ⟨e, he, hinspected.answered found (by rw [h])⟩
  · cases h

end Scans

end Tourillon
