import Tourillon.Store.Fleet

namespace Tourillon

open Exceptional

def FleetAction.antiEntropy : FleetAction → Bool
  | .apply _ _ _ _ => true
  | .forward _ _ _ => true
  | .forwardLatest _ _ _ => true
  | _ => false

def FleetAction.discards : FleetAction → Bool
  | .collect _ _ _ _ _ => true
  | .forget _ _ _ _ => true
  | _ => false

theorem FleetAction.discards_of_antiEntropy {a : FleetAction} (h : a.antiEntropy = true) : a.discards = false := by
  cases a <;> trivial

def Fleet.Adds (f f' : Fleet) : Prop := ∀ node group, ∃ records obligations,
  Added node records obligations (f.storage node group) (f'.storage node group)

def Fleet.recordAt (d : Deployment) (f : Fleet) (node : String) (k : Key) : Option Record :=
  ((f.storage node (d.partitioner.groupFor k.pid)).read k).toOption.join

def Fleet.StampedOnce (f : Fleet) : Prop := (f.issued.map fun r => r.key.ts).Nodup

instance (f : Fleet) : Decidable f.StampedOnce := inferInstanceAs (Decidable (List.Nodup _))

theorem Fleet.StampedOnce.unique {f : Fleet} (h : f.StampedOnce) {r r' : Record} (hr : r ∈ f.issued)
    (hr' : r' ∈ f.issued) (hkey : r.key = r'.key) : r = r' :=
  List.inj_on_of_nodup_map h hr hr' (by rw [hkey])

section Adds

variable {f f' : Fleet} {node : String} {group : Nat}

theorem Fleet.Adds.same (h : ∀ node group, f'.storage node group = f.storage node group) : f.Adds f' := by
  intro node group
  rw [h]
  exact ⟨[], [], added_nothing node _⟩

theorem Fleet.Adds.send (found : Except PyError (Option Record)) (codec : Codec) : f.Adds (f.send found codec) := by
  apply Fleet.Adds.same
  intro node group
  rcases f.send_cases found codec with hsame | ⟨r, m, _, _, hsent⟩
  · rw [hsame]
  · rw [hsent]
    rfl

theorem Fleet.Adds.withStorage {g : GroupStorage} {records : List Record} {obligations : List ObligationKey}
    (h : Added node records obligations (f.storage node group) g) : f.Adds (f.withStorage node group g) := by
  intro n i
  rw [Fleet.storage_withStorage]
  split
  · rename_i hsame
    rw [hsame.1, hsame.2]
    exact ⟨records, obligations, h⟩
  · exact ⟨[], [], added_nothing n _⟩

theorem Fleet.Adds.withStorage_error : f.Adds (f.withStorage node group (f.storage node group)) :=
  Fleet.Adds.withStorage (added_nothing node _)

end Adds

section Safety

variable [Blake2b] {d : Deployment} {f : Fleet}

theorem Consistent.recordAt_iff (h : Consistent f) {node : String} {k : Key} {r : Record} :
    f.recordAt d node k = some r ↔ r ∈ f.issued ∧ r.key = k ∧
      k ∈ (f.storage node (d.partitioner.groupFor k.pid)).held ∧
      (f.storage node (d.partitioner.groupFor k.pid)).Stores r := by
  have hledger := h.ledger node (d.partitioner.groupFor k.pid)
  unfold Fleet.recordAt
  rw [Option.join_eq_some_iff, ← Option.mem_def, mem_toOption]
  constructor
  · intro hread
    obtain ⟨hin, hkey, hheld⟩ := hledger.read h.storable hread
    obtain ⟨q, hq, hqk, hstores⟩ := hledger.source k hheld
    have hqread := read_of_stores (h.storable q hq) (hqk ▸ hledger.encodable_of_held hheld) hstores
    rw [hqk, hread] at hqread
    cases hqread
    exact ⟨hin, hkey, hheld, hstores⟩
  · rintro ⟨hin, rfl, hheld, hstores⟩
    exact read_of_stores (h.storable r hin) (hledger.encodable_of_held hheld) hstores

theorem Fleet.run_append (pre rest : List FleetAction) :
    f.run d (pre ++ rest) = (f.run d pre).run d rest := List.foldl_append

theorem Consistent.adds (h : Consistent f) {a : FleetAction} (ha : a.discards = false) : f.Adds (f.step d a) := by
  have hdelivered := h.delivers a
  cases a with
  | wall node nowMs => exact .same fun n i => f.storage_withWall node n nowMs i
  | stamp node addr value pid tombstone quorum =>
    unfold Fleet.step
    dsimp only
    split
    · cases writeRecord (f.sites node).clock (f.sites node).wall addr value pid tombstone
          quorum.toNat with
      | mk found clock =>
        cases found with
        | ok r => exact .same fun n i => f.storage_withClock node n clock i
        | error e => exact .same fun n i => f.storage_withClock node n clock i
    · exact .same fun _ _ => rfl
  | restart node =>
    unfold Fleet.step
    dsimp only
    split
    · exact .same fun n i => f.storage_withClock node n _ i
    · exact .same fun _ _ => rfl
  | relay message codec => exact .send _ codec
  | forward n key codec => exact .send _ codec
  | forwardLatest n addr codec => exact .send _ codec
  | write node message faults =>
    unfold Fleet.step
    dsimp only
    split
    · rename_i r hr
      rcases (localWrite_spec faults node (h.clean node _) (h.received hr).2).2 with
        ⟨e, herror⟩ | ⟨_, hadded⟩
      · rw [herror]
        exact .withStorage_error
      · exact .withStorage hadded
    · exact .same fun _ _ => rfl
  | oblige node message targets faults =>
    unfold Fleet.step
    dsimp only
    split
    · rename_i r hr
      rcases (oblige_spec faults node targets (h.clean node _) (h.received hr).2).2 with
        ⟨e, herror⟩ | ⟨_, _, _, hadded⟩
      · rw [herror]
        exact .withStorage_error
      · exact .withStorage hadded
    · exact .same fun _ _ => rfl
  | apply node pid messages faults =>
    unfold Fleet.step
    dsimp only
    split
    · have hrecords : FleetAction.delivers f node (.apply node pid messages faults) =
          messages.filterMap f.received := if_pos rfl
      rcases (applyRecords_spec (d.policy node) faults node (h.clean node _)
          fun r hr => (hdelivered node r (hrecords ▸ hr)).2).2 with
        ⟨e, herror⟩ | ⟨outcomes, selected, _, _, hadded⟩
      · rw [herror]
        exact .withStorage_error
      · exact .withStorage hadded
    · exact .same fun _ _ => rfl
  | collect node group keys dryRun faults => cases ha
  | forget node group obligations faults => cases ha

theorem versions_immutable (hf : f.Initial) (acts : List FleetAction) (hstamps : (f.run d acts).StampedOnce) :
    (∀ pre rest, acts = pre ++ rest → ∀ node k r, (f.run d pre).recordAt d node k = some r →
      (f.run d acts).recordAt d node k = some r ∨ (f.run d acts).recordAt d node k = none) ∧
    (∀ node node' k r r', (f.run d acts).recordAt d node k = some r →
      (f.run d acts).recordAt d node' k = some r' → r.value = r'.value ∧ r.tag = r'.tag) ∧
    (∀ pre a rest, acts = pre ++ a :: rest → a.antiEntropy = true → ∀ node k r,
      (f.run d pre).recordAt d node k = some r → ((f.run d pre).step d a).recordAt d node k = some r) := by
  have hfinal : Consistent (f.run d acts) := hf.consistent.run acts
  refine ⟨?_, ?_, ?_⟩
  · intro pre rest hsplit node k r hr
    have hpre : Consistent (f.run d pre) := hf.consistent.run pre
    obtain ⟨hin, hkey, _⟩ := hpre.recordAt_iff.mp hr
    have hlater : r ∈ (f.run d acts).issued := by
      rw [hsplit, Fleet.run_append]
      exact (hpre.issued_prefix rest).subset hin
    cases hnow : (f.run d acts).recordAt d node k with
    | none => exact .inr rfl
    | some q =>
      obtain ⟨hqin, hqkey, _⟩ := hfinal.recordAt_iff.mp hnow
      rw [hstamps.unique hqin hlater (hqkey.trans hkey.symm)]
      exact .inl rfl
  · intro node node' k r r' hr hr'
    obtain ⟨hin, hkey, _⟩ := hfinal.recordAt_iff.mp hr
    obtain ⟨hin', hkey', _⟩ := hfinal.recordAt_iff.mp hr'
    rw [hstamps.unique hin hin' (hkey.trans hkey'.symm)]
    exact ⟨rfl, rfl⟩
  · intro pre a rest _ ha node k r hr
    have hpre : Consistent (f.run d pre) := hf.consistent.run pre
    obtain ⟨hin, hkey, hheld, hstores⟩ := hpre.recordAt_iff.mp hr
    obtain ⟨records, obligations, hadded⟩ := hpre.adds (d := d)
      (FleetAction.discards_of_antiEntropy ha) node (d.partitioner.groupFor k.pid)
    refine (hpre.step a).consistent.recordAt_iff.mpr
      ⟨(hpre.step a).issued.subset hin, hkey, ?_, hadded.stores hstores⟩
    rw [hadded.held (hpre.clean node _).toHolding]
    exact Finset.mem_union_left _ hheld

theorem obligations_covered (hf : f.Initial) (acts : List FleetAction) (node : String) (group : Nat)
    (o : ObligationKey) (ho : ((f.run d acts).storage node group).Owes o) :
    o.target ≠ node ∧ ∃ r, ((f.run d acts).storage node group).read r.key = .ok (some r) ∧
      r.owned = true ∧ r.key.partitionAddress = o.address ∧ o.requiredTs ≤ r.key.ts := by
  have hfinal : Consistent (f.run d acts) := hf.consistent.run acts
  have hledger := hfinal.ledger node group
  obtain ⟨hne, k, hk, haddr, hts⟩ := hledger.covered o ho
  obtain ⟨r, hr, rfl, hstores⟩ := hledger.source k hk
  have hstorable := hfinal.storable r hr
  exact ⟨hne, r, read_of_stores hstorable (hledger.encodable_of_held hk) hstores, hstorable.owned, haddr, hts⟩

end Safety

namespace Sample

def deployment : Deployment := ⟨⟨1, 0, Nat.one_pos⟩, fun _ => ⟨1, Nat.one_pos⟩⟩

def sites : Fleet where
  sites node := ⟨fun _ => .empty, ⟨if node = "a" then "a" else "b", 0, 0, by split <;> decide⟩, 0⟩
  wire := []
  issued := []

theorem sites_initial : sites.Initial := ⟨fun _ _ => rfl, rfl, rfl⟩

def calm : Faults := ⟨fun _ => .ok (), .ok ()⟩

def firstKey : Key := ⟨0, ⟨[1], [2]⟩, ⟨9, 0, "a", size_a⟩⟩

def copying : List FleetAction :=
  [.wall "a" 9, .stamp "a" ⟨[1], [2]⟩ [3] 0 false 1, .oblige "a" 0 ["b"] calm,
    .forward "a" firstKey .entry, .apply "b" 0 [1] calm]

theorem copies_agree : (sites.run deployment copying).recordAt deployment "b" firstKey ≠ none ∧
    ∀ r r', (sites.run deployment copying).recordAt deployment "a" firstKey = some r →
      (sites.run deployment copying).recordAt deployment "b" firstKey = some r' →
        r.value = r'.value ∧ r.tag = r'.tag := by
  have hstamps : (sites.run deployment copying).StampedOnce := by decide +kernel
  refine ⟨by decide +kernel, ?_⟩
  intro r r'
  exact (versions_immutable sites_initial copying hstamps).2.1 "a" "b" firstKey r r'

theorem owed_copy_covered : ∃ r, ((sites.run deployment copying).storage "a" 0).read r.key = .ok (some r) ∧
      r.owned = true ∧ r.key.partitionAddress = firstKey.partitionAddress ∧ firstKey.ts ≤ r.key.ts := by
  have howes : ((sites.run deployment copying).storage "a" 0).Owes
      ⟨"b", firstKey, by decide, by decide⟩ := by decide +kernel
  exact (obligations_covered sites_initial copying "a" 0 _ howes).2

end Sample

end Tourillon
