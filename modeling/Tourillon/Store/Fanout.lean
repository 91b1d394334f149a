import Tourillon.Store.FleetSafety

namespace Tourillon

open Endian

def base64Alphabet : List Char := "ABCDEFGHIJKLMNOPQRSTUVWXYZabcdefghijklmnopqrstuvwxyz0123456789-_".toList

def base64Char (n : Nat) : Char := base64Alphabet.getD n 'A'

def urlsafeB64encode : Bytes → List Char
  | a :: b :: c :: rest =>
    base64Char (a.toNat / 4) :: base64Char (a.toNat % 4 * 16 + b.toNat / 16) ::
      base64Char (b.toNat % 16 * 4 + c.toNat / 64) :: base64Char (c.toNat % 64) ::
        urlsafeB64encode rest
  | [a, b] =>
    [base64Char (a.toNat / 4), base64Char (a.toNat % 4 * 16 + b.toNat / 16), base64Char (b.toNat % 16 * 4)]
  | [a] => [base64Char (a.toNat / 4), base64Char (a.toNat % 4 * 16)]
  | [] => []

def encodeToken (key : Key) : Except PyError String := do
  let encoded ← key.toBytes .logs
  return String.ofList (urlsafeB64encode encoded)

def writeTarget (e : Preference) : Option (String × Option String) :=
  match e.handoff with
  | some handoff => some (handoff, some e.nodeId)
  | none => if e.writable then some (e.nodeId, none) else none

def writeTargets (preferences : List Preference) : List (String × Option String) :=
  preferences.filterMap writeTarget

structure Writes where
  applied : List Record
  errors : List ReplicaError

abbrev WriteAnswer : Type := Nat → Except ReplicaError Record

def Writes.collect (answer : WriteAnswer) (done : List Nat) (s : Writes) : Writes :=
  done.foldl (fun s task =>
    match answer task with
    | .ok r => ⟨s.applied ++ [r], s.errors⟩
    | .error e => ⟨s.applied, s.errors ++ [e]⟩) s

def fanoutWrite (targets : List (String × Option String)) (quorum : Nat) (answer : WriteAnswer)
    (arrivals : List (List Nat)) : Gather.Outcome Nat Writes :=
  Gather.gather (Writes.collect answer)
    (fun s => decide (quorum ≤ (selectVersion (versionsFromRecords s.applied)).2)) arrivals
    (List.range targets.length) ⟨[], []⟩

def writeErrors (targets : List (String × Option String)) (out : Gather.Outcome Nat Writes) : List ReplicaError :=
  out.state.errors ++
    if out.expired then unanswered (out.running.map fun i => ((targets.map Prod.fst).getD i ""))
    else []

def acknowledge (record : Record) (targets : List (String × Option String)) (quorum : Int)
    (answer : WriteAnswer) (arrivals : List (List Nat)) : Except StoreError (Option Version) :=
  let out := fanoutWrite targets quorum.toNat answer arrivals
  let errors := writeErrors targets out
  if out.state.applied = [] ∧ errors ≠ [] then .error (.operationFailed "write" errors)
  else do
    let (version, count) := selectVersion (versionsFromRecords out.state.applied)
    let token ← (encodeToken record.key).mapError .python
    ensureQuorum count quorum.toNat "write" errors (some token)
    return version

inductive TaskPhase where
  | sent
  | falling (e : ReplicaError)
  | done (result : Except ReplicaError Record)

def TaskPhase.ended : TaskPhase → Bool
  | .done _ => true
  | _ => false

structure FanTask where
  target : String
  intent : Option String
  served : Bool
  phase : TaskPhase

structure Order where
  node : String
  record : Record

inductive TaskAction where
  | serve (faults : Faults)
  | answer
  | fail (e : ReplicaError)
  | fallback (faults : Faults)

inductive FanAction where
  | other (a : FleetAction)
  | task (i : Nat) (a : TaskAction)

structure Fan where
  fleet : Fleet
  tasks : List FanTask

def transmit (r : Record) : Except PyError Record := Record.fromDict r.toDict

def FanTask.create (target : String × Option String) : FanTask := ⟨target.1, target.2, false, .sent⟩

section Machine

variable [Blake2b] (d : Deployment) (o : Order) {g : GroupStorage} {obligations : List ObligationKey}

def Order.group : Nat := d.partitioner.groupFor o.record.key.pid

namespace FanTask

def transaction (t : FanTask) (faults : Faults) (r : Record) (g : GroupStorage) :
    Except PyError Unit × GroupStorage :=
  match t.intent with
  | some owner =>
    let (result, g) := oblige faults t.target r [owner] g
    (result.map fun _ => (), g)
  | none =>
    let (result, g) := localWrite faults r g
    (result.map fun _ => (), g)

def settle (t : FanTask) (result : Except ReplicaError Record) : FanTask :=
  if t.target = o.node then { t with phase := .done result } else t

def serve (f : Fleet) (t : FanTask) (faults : Faults) : FanTask × Fleet :=
  match transmit o.record with
  | .error _ => (t, f)
  | .ok r =>
    let (result, g) := t.transaction faults r (f.storage t.target (o.group d))
    match result with
    | .ok _ => ({ t with served := true }.settle o (.ok r), f.withStorage t.target (o.group d) g)
    | .error _ => (t.settle o (.error (.raised "local storage failed")), f)

def step (f : Fleet) (t : FanTask) : TaskAction → FanTask × Fleet
  | .serve faults =>
    match t.phase with
    | .sent => t.serve d o f faults
    | _ => if t.target = o.node then (t, f) else t.serve d o f faults
  | .answer =>
    match t.phase, transmit o.record with
    | .sent, .ok r => if t.target ≠ o.node ∧ t.served then ({ t with phase := .done (.ok r) }, f) else (t, f)
    | _, _ => (t, f)
  | .fail e =>
    match t.phase, t.intent with
    | .sent, some _ => if t.target = o.node then (t, f) else ({ t with phase := .done (.error e) }, f)
    | .sent, none => if t.target = o.node then (t, f) else ({ t with phase := .falling e }, f)
    | _, _ => (t, f)
  | .fallback faults =>
    match t.phase with
    | .falling e =>
      let (_, g) := oblige faults o.node o.record [t.target] (f.storage o.node (o.group d))
      ({ t with phase := .done (.error e) }, f.withStorage o.node (o.group d) g)
    | _ => (t, f)

end FanTask

namespace Fan

def step (s : Fan) : FanAction → Fan
  | .other a => { s with fleet := s.fleet.step d a }
  | .task i a =>
    match s.tasks[i]? with
    | some t =>
      let (t, f) := t.step d o s.fleet a
      ⟨f, s.tasks.set i t⟩
    | none => s

def run (s : Fan) (acts : List FanAction) : Fan := acts.foldl (step d o) s

def outcome (s : Fan) (i : Nat) : Except ReplicaError Record :=
  match s.tasks[i]? with
  | some ⟨_, _, _, .done result⟩ => result
  | _ => .error (.raised "task is still running")

def ended (s : Fan) (i : Nat) : Bool := s.tasks[i]?.any fun t => t.phase.ended

end Fan

structure Grows (f f' : Fleet) : Prop where
  consistent : Consistent f'
  issued : f'.issued = f.issued
  adds : f.Adds f'

def Order.StoredAt (n : String) (f : Fleet) : Prop := o.record.key ∈ (f.storage n (o.group d)).held

def Order.OwedAt (holder owner : String) (f : Fleet) : Prop :=
  ∃ b, (f.storage holder (o.group d)).Owes b ∧ b.target = owner ∧ b.key = o.record.key

variable {d o} {f f' : Fleet}

theorem Grows.refl (h : Consistent f) : Grows f f := ⟨h, rfl, .same fun _ _ => rfl⟩

theorem Grows.transacts (d : Deployment) (h : Consistent f) {node : String} {group : Nat}
    {records : List Record} (hclean : Clean g) (hknown : ∀ r ∈ records, r ∈ f.issued)
    (hadded : Added node records obligations (f.storage node group) g) : Grows f (f.withStorage node group g) := by
  have hadvances : Advances d (fun _ => f.issued) f (f.withStorage node group g) :=
    h.transacts hclean (fun _ _ hr => hr) (.added records obligations hknown hadded)
  exact ⟨hadvances.consistent, rfl, .withStorage hadded⟩

theorem Order.StoredAt.adds (hc : Consistent f) (h : f.Adds f') {n : String}
    (hs : o.StoredAt d n f) : o.StoredAt d n f' := by
  obtain ⟨records, obligations, hadded⟩ := h n (o.group d)
  unfold Order.StoredAt
  rw [hadded.held (hc.clean n _).toHolding]
  exact Finset.mem_union_left _ hs

omit [Blake2b] in
theorem Order.OwedAt.adds (h : f.Adds f') {holder owner : String} (ho : o.OwedAt d holder owner f) :
    o.OwedAt d holder owner f' := by
  obtain ⟨b, howes, hb⟩ := ho
  obtain ⟨records, obligations, hadded⟩ := h holder (o.group d)
  exact ⟨b, (hadded.owes b).mpr (.inl howes), hb⟩

structure Backed (d : Deployment) (o : Order) (t : FanTask) (f : Fleet) : Prop where
  stored : o.StoredAt d t.target f
  owed : ∀ owner ∈ t.intent, owner ≠ t.target → o.OwedAt d t.target owner f

structure TaskStep (d : Deployment) (o : Order) (f f' : Fleet) (t t' : FanTask) : Prop where
  grows : Grows f f'
  target : t'.target = t.target
  intent : t'.intent = t.intent
  served : t'.served = true → t.served = true ∨ Backed d o t f'
  kept : t.served = true → t'.served = true
  answered : ∀ r, t'.phase = .done (.ok r) →
    t.phase = .done (.ok r) ∨ r = o.record ∧ t'.served = true

theorem TaskStep.idle (h : Consistent f) (t : FanTask) : TaskStep d o f f t t :=
  ⟨.refl h, rfl, rfl, .inl, id, fun _ => .inl⟩

omit [Blake2b] in
theorem transmit_ok (r : Record) : transmit r = .ok r := r.fromDict_toDict

omit [Blake2b] in
theorem storage_withStorage_self (f : Fleet) (node : String) (group : Nat) (g : GroupStorage) :
    (f.withStorage node group g).storage node group = g := by
  rw [Fleet.storage_withStorage, if_pos ⟨rfl, rfl⟩]

section

variable (h : Consistent f) (hr : o.record ∈ f.issued)

include h hr

theorem added_stored {node : String} (hclean : Clean g)
    (hadded : Added node [o.record] obligations (f.storage node (o.group d)) g) :
    Grows f (f.withStorage node (o.group d) g) ∧ o.StoredAt d node (f.withStorage node (o.group d) g) := by
  refine ⟨Grows.transacts d h hclean ?_ hadded, ?_⟩
  · intro r hin
    rwa [List.mem_singleton.mp hin]
  · unfold Order.StoredAt
    rw [storage_withStorage_self, hadded.held (h.clean node _).toHolding]
    simp

theorem oblige_owed (faults : Faults) (holder : String) (owner : String)
    (hrun : oblige faults holder o.record [owner] (f.storage holder (o.group d)) = (.ok obligations, g)) :
    Grows f (f.withStorage holder (o.group d) g) ∧ o.StoredAt d holder (f.withStorage holder (o.group d) g) ∧
      (owner ≠ holder → o.OwedAt d holder owner (f.withStorage holder (o.group d) g)) := by
  obtain ⟨hclean, hcases⟩ := oblige_spec faults holder [owner] (h.clean holder (o.group d))
    (h.storable _ hr)
  rw [hrun] at hclean hcases
  rcases hcases with ⟨e, herror⟩ | ⟨found, hok, hfor, hadded⟩
  · cases herror
  · cases hok
    obtain ⟨hgrows, hstored⟩ := added_stored h hr hclean hadded
    refine ⟨hgrows, hstored, ?_⟩
    intro hne
    obtain ⟨b, hb, htarget, hkey⟩ := (mem_obligationsFor hfor).2 owner (by simp) hne
    refine ⟨b, ?_, htarget, hkey⟩
    rw [storage_withStorage_self, hadded.owes]
    exact .inr hb

theorem localWrite_stored (faults : Faults) (node : String) {r : Record}
    (hrun : localWrite faults o.record (f.storage node (o.group d)) = (.ok r, g)) :
    Grows f (f.withStorage node (o.group d) g) ∧ o.StoredAt d node (f.withStorage node (o.group d) g) := by
  obtain ⟨hclean, hcases⟩ := localWrite_spec faults node (h.clean node (o.group d)) (h.storable _ hr)
  rw [hrun] at hclean hcases
  rcases hcases with ⟨e, herror⟩ | ⟨hok, hadded⟩
  · cases herror
  · exact added_stored h hr hclean hadded

theorem transaction_spec (t : FanTask) (faults : Faults)
    (hrun : t.transaction faults o.record (f.storage t.target (o.group d)) = (.ok (), g)) :
    Grows f (f.withStorage t.target (o.group d) g) ∧ Backed d o t (f.withStorage t.target (o.group d) g) := by
  unfold FanTask.transaction at hrun
  cases hintent : t.intent with
  | some owner =>
    rw [hintent] at hrun
    dsimp only at hrun
    cases hcase : oblige faults t.target o.record [owner] (f.storage t.target (o.group d)) with
    | mk result g' =>
      rw [hcase] at hrun
      cases result with
      | error e => cases hrun
      | ok obligations =>
        cases hrun
        obtain ⟨hgrows, hstored, howed⟩ := oblige_owed h hr faults t.target owner hcase
        refine ⟨hgrows, hstored, ?_⟩
        intro owner' hin hne
        rw [hintent, Option.mem_def, Option.some.injEq] at hin
        subst hin
        exact howed hne
  | none =>
    rw [hintent] at hrun
    dsimp only at hrun
    cases hcase : localWrite faults o.record (f.storage t.target (o.group d)) with
    | mk result g' =>
      rw [hcase] at hrun
      cases result with
      | error e => cases hrun
      | ok r =>
        cases hrun
        obtain ⟨hgrows, hstored⟩ := localWrite_stored h hr faults t.target hcase
        refine ⟨hgrows, hstored, ?_⟩
        rw [hintent]
        nofun

end

omit [Blake2b] in
theorem settle_spec (o : Order) (t : FanTask) (result : Except ReplicaError Record) :
    (t.settle o result).target = t.target ∧ (t.settle o result).intent = t.intent ∧
      (t.settle o result).served = t.served ∧
      ((t.settle o result).phase = t.phase ∨ (t.settle o result).phase = .done result) := by
  unfold FanTask.settle
  split
  · exact ⟨rfl, rfl, rfl, .inr rfl⟩
  · exact ⟨rfl, rfl, rfl, .inl rfl⟩

theorem serve_spec (h : Consistent f) (hr : o.record ∈ f.issued) (t : FanTask) (faults : Faults) :
    TaskStep d o f (t.serve d o f faults).2 t (t.serve d o f faults).1 := by
  unfold FanTask.serve
  rw [transmit_ok]
  dsimp only
  cases hcase : t.transaction faults o.record (f.storage t.target (o.group d)) with
  | mk result g =>
    cases result with
    | error e =>
      obtain ⟨htarget, hintent, hserved, hphase⟩ := settle_spec o t (.error (.raised "local storage failed"))
      refine ⟨.refl h, htarget, hintent, ?_, ?_, ?_⟩
      · intro hs
        exact .inl (hserved ▸ hs)
      · intro hs
        exact hserved.trans hs
      · intro r hdone
        rcases hphase with hphase | hphase
        · exact .inl (hphase ▸ hdone)
        · rw [hphase] at hdone
          cases hdone
    | ok _ =>
      obtain ⟨hgrows, hbacked⟩ := transaction_spec h hr t faults hcase
      obtain ⟨htarget, hintent, hserved, hphase⟩ := settle_spec o { t with served := true } (.ok o.record)
      refine ⟨hgrows, htarget, hintent, fun _ => .inr hbacked, fun _ => hserved, ?_⟩
      intro r hdone
      rcases hphase with hphase | hphase
      · exact .inl (hphase ▸ hdone)
      · rw [hphase] at hdone
        cases hdone
        exact .inr ⟨rfl, hserved⟩

theorem step_spec (h : Consistent f) (hr : o.record ∈ f.issued) (t : FanTask) (a : TaskAction) :
    TaskStep d o f (t.step d o f a).2 t (t.step d o f a).1 := by
  cases a with
  | serve faults =>
    unfold FanTask.step
    dsimp only
    split
    · exact serve_spec h hr t faults
    · split
      · exact .idle h t
      · exact serve_spec h hr t faults
  | answer =>
    unfold FanTask.step
    rw [transmit_ok]
    dsimp only
    split
    · rename_i r hphase hok
      split
      · rename_i hcond
        refine ⟨.refl h, rfl, rfl, .inl, id, ?_⟩
        intro r' hdone
        cases hdone
        exact .inr ⟨(Except.ok.inj hok).symm, hcond.2⟩
      · exact .idle h t
    · exact .idle h t
  | fail e =>
    unfold FanTask.step
    dsimp only
    split
    · split
      · exact .idle h t
      · exact ⟨.refl h, rfl, rfl, .inl, id, nofun⟩
    · split
      · exact .idle h t
      · exact ⟨.refl h, rfl, rfl, .inl, id, nofun⟩
    · exact .idle h t
  | fallback faults =>
    unfold FanTask.step
    dsimp only
    split
    · refine ⟨?_, rfl, rfl, .inl, id, nofun⟩
      obtain ⟨hclean, hcases⟩ := oblige_spec faults o.node [t.target] (h.clean o.node (o.group d))
        (h.storable _ hr)
      rcases hcases with ⟨e, herror⟩ | ⟨found, _, _, hadded⟩
      · rw [herror] at hclean ⊢
        refine Grows.transacts d h hclean ?_ (added_nothing o.node _)
        nofun
      · refine Grows.transacts d h hclean ?_ hadded
        intro r hin
        rwa [List.mem_singleton.mp hin]
    · exact .idle h t

end Machine

end Tourillon
