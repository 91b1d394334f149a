import Tourillon.AntiEntropy.CourierSpec
import Tourillon.AntiEntropy.PushFrame
import Tourillon.AntiEntropy.Undisturbed
import Tourillon.Library.Greedy

namespace Tourillon

open Exceptional Prog Sequence ReadAcc List Yields

theorem batches_fit (records : List Record) : ∀ batch ∈ batches records, batch ≠ [] ∧
    batch.length ≤ applyBatch ∧ ((batch.map recordSize).sum ≤ applyBatchBytes ∨ batch.length = 1) := by
  let bin (acc : BatchAcc) : Greedy.Bin Record := ⟨acc.done, acc.current, acc.size⟩
  let single (r : Record) : List Record := [r]
  have hsingle (b : List Record) : b.flatMap single = b := (List.flatMap_pure_eq_map id b).trans (List.map_id b)
  have hfold : bin (records.foldl BatchAcc.add {}) =
      records.foldl (Greedy.add single recordSize (fun b => b.length = applyBatch) applyBatchBytes)
        ⟨[], [], 0⟩ := by
    refine (List.foldl_hom bin ?_).symm
    intro acc r
    unfold Greedy.add BatchAcc.add
    split <;> rfl
  have hout (r : Record) (_ : r ∈ records) : single r ≠ [] := List.cons_ne_nil r []
  have hone (r : Record) : [r].length ≤ applyBatch := show 1 ≤ applyBatch by decide
  obtain ⟨blocks, hparts, _, hfits⟩ := Greedy.exists_blocks recordSize (fun b => b.length = applyBatch)
    applyBatchBytes hout (Q := fun batch => batch ≠ [] ∧ batch.length ≤ applyBatch ∧
      ((batch.map recordSize).sum ≤ applyBatchBytes ∨ batch.length = 1))
    (fun r => ⟨List.cons_ne_nil r [], hone r, .inr rfl⟩) (by
      rintro b r ⟨_, hlength, _⟩ hopen hsize
      rw [hsingle] at hopen
      rw [List.map_append, List.length_append, List.length_singleton, List.sum_append]
      exact ⟨by simp, by omega, .inl (by simpa using hsize)⟩)
  rw [← hfold, Greedy.Bin.parts] at hparts
  simp only [hsingle, List.map_id', bin, List.isEmpty_iff] at hparts
  rw [batches, hparts]
  exact hfits

section Chunks

variable {cover : ObligationKey → Record} {obligations : List ObligationKey} {records : List (Key × Record)}

structure Apportioned (cover : ObligationKey → Record) (obligations : List ObligationKey) (maxBytes : Nat)
    (chunks : List (List ObligationKey)) : Prop where
  each : chunks.flatten.Perm obligations
  together : chunks.Pairwise fun a b => ∀ ob ∈ a, ∀ ob' ∈ b, (cover ob).key ≠ (cover ob').key
  nonempty : ∀ chunk ∈ chunks, chunk ≠ []
  bounded : ∀ chunk ∈ chunks, ∃ firsts, firsts ⊆ chunk ∧ (firsts.map fun ob => (cover ob).key).Nodup ∧
    (∀ ob ∈ chunk, ∃ first ∈ firsts, (cover first).key = (cover ob).key) ∧
    ((firsts.map fun ob => recordSize (cover ob)).sum ≤ maxBytes ∨ firsts.length = 1)

def firstBytes (cover : ObligationKey → Record) (e : Key × List ObligationKey) : Nat :=
  (e.2.head?.map fun ob => recordSize (cover ob)).getD 0

theorem gather_version {e : Key × List ObligationKey}
    (he : e ∈ gather (obligations.map fun ob => ((cover ob).key, ob))) :
    e.2 ≠ [] ∧ ∀ ob ∈ e.2, ob ∈ obligations ∧ (cover ob).key = e.1 := by
  refine ⟨gather_ne_nil he, fun ob hob => ?_⟩
  obtain ⟨key, debts⟩ := e
  rw [gather_values he] at hob
  obtain ⟨pair, hpair, rfl⟩ := mem_map.mp hob
  obtain ⟨hmem, hkey⟩ := mem_filter.mp hpair
  obtain ⟨ob, howed, rfl⟩ := mem_map.mp hmem
  exact ⟨howed, of_decide_eq_true hkey⟩

theorem exists_firsts {b : List (Key × List ObligationKey)}
    (h : b ⊆ gather (obligations.map fun ob => ((cover ob).key, ob))) :
    ∃ firsts, firsts ⊆ b.flatMap Prod.snd ∧ firsts.map (fun ob => (cover ob).key) = b.map Prod.fst ∧
      firsts.map (fun ob => recordSize (cover ob)) = b.map (firstBytes cover) := by
  induction b with
  | nil => exact ⟨[], nil_subset _, rfl, rfl⟩
  | cons e b ih =>
    obtain ⟨firsts, hin, hkeys, hsizes⟩ := ih fun e he => h (mem_cons_of_mem _ he)
    obtain ⟨hne, hversion⟩ := gather_version (h mem_cons_self)
    obtain ⟨key, debts⟩ := e
    obtain ⟨ob, debts, rfl⟩ := exists_cons_of_ne_nil hne
    refine ⟨ob :: firsts, ?_, ?_, ?_⟩
    · exact cons_subset.mpr ⟨by simp, List.Subset.trans hin (subset_append_right _ _)⟩
    · rw [map_cons, map_cons, hkeys, (hversion ob mem_cons_self).2]
    · rw [map_cons, map_cons, hsizes]
      rfl

variable (h : ∀ ob ∈ obligations, records.lookup ob.key = some (cover ob)) (maxBytes : Nat)

include h

theorem obligationChunks_eq : obligationChunks obligations records maxBytes = .ok
      ((gather (obligations.map fun ob => ((cover ob).key, ob))).foldl
        (Greedy.add Prod.snd (firstBytes cover) (fun _ => False) maxBytes) ⟨[], [], 0⟩).parts := by
  have hcover (ob : ObligationKey) (hob : ob ∈ obligations) : covering records ob = .ok (cover ob) := by
    rw [covering, h ob hob]
  obtain ⟨groups, hgroups⟩ : ∃ groups, groups = gather (obligations.map fun ob => ((cover ob).key, ob)) :=
    ⟨_, rfl⟩
  have hcosted : (groups.mapM fun e => do
      let cost ← costOf records e.2
      return (cost, e.2)) = Except.ok (groups.map fun e => (firstBytes cover e, e.2)) := by
    refine mapM_ok_of_forall fun e he => ?_
    obtain ⟨hne, hversion⟩ := gather_version (hgroups ▸ he)
    obtain ⟨key, debts⟩ := e
    obtain ⟨ob, debts, rfl⟩ := List.exists_cons_of_ne_nil hne
    rw [costOf, hcover ob (hversion ob List.mem_cons_self).1]
    rfl
  let bin (acc : ChunkAcc) : Greedy.Bin ObligationKey := ⟨acc.done, acc.current, acc.size⟩
  have hfold : bin ((groups.map fun e => (firstBytes cover e, e.2)).foldl (ChunkAcc.add maxBytes) {}) =
      groups.foldl (Greedy.add Prod.snd (firstBytes cover) (fun _ => False) maxBytes) ⟨[], [], 0⟩ := by
    rw [List.foldl_map]
    refine (List.foldl_hom bin ?_).symm
    intro acc e
    unfold Greedy.add ChunkAcc.add
    simp only [bin, false_or]
    split <;> rfl
  refine bind_eq_ok.mpr ⟨_, mapM_ok_of_forall fun ob hob => by rw [hcover ob hob]; rfl, ?_⟩
  rw [← hgroups]
  refine bind_eq_ok.mpr ⟨_, hcosted, pure_eq_ok.mpr ?_⟩
  rw [← hfold, Greedy.Bin.parts]
  simp only [bin, List.isEmpty_iff]

theorem obligationChunks_apportioned : ∃ chunks, obligationChunks obligations records maxBytes = .ok chunks ∧
      Apportioned cover obligations maxBytes chunks := by
  obtain ⟨keyed, hkeyed⟩ : ∃ keyed, keyed = obligations.map fun ob => ((cover ob).key, ob) := ⟨_, rfl⟩
  rw [obligationChunks_eq h, ← hkeyed]
  obtain ⟨blocks, hparts, hblocks, hfits⟩ := Greedy.exists_blocks (firstBytes cover)
    (fun _ => False) maxBytes (fun e (he : e ∈ gather keyed) => gather_ne_nil he)
    (Q := fun b => b ≠ [] ∧ ((b.map (firstBytes cover)).sum ≤ maxBytes ∨ b.length = 1))
    (fun e => ⟨cons_ne_nil e [], .inr rfl⟩)
    (fun b e _ _ hsize => ⟨by simp, .inl (by simpa using hsize)⟩)
  have hsub {b : List (Key × List ObligationKey)} (hb : b ∈ blocks) : b.Sublist (gather keyed) :=
    hblocks ▸ sublist_flatten_of_mem hb
  have hgroup {b : List (Key × List ObligationKey)} (hb : b ∈ blocks) (e : Key × List ObligationKey) (he : e ∈ b) :=
    gather_version (hkeyed ▸ (hsub hb).subset he)
  refine ⟨_, rfl, ?_⟩
  rw [hparts]
  refine ⟨?_, ?_, ?_, ?_⟩
  · have hflat : (blocks.map fun b => b.flatMap Prod.snd).flatten = blocks.flatten.flatMap Prod.snd := by
      simp only [flatMap_def, map_flatten, flatten_flatten, map_map]
      rfl
    rw [hflat, hblocks]
    refine (perm_gather keyed).trans (List.Perm.of_eq ?_)
    simp [hkeyed, Function.comp_def]
  · have hkeys : blocks.flatten.Pairwise fun e e' => e.1 ≠ e'.1 :=
      hblocks ▸ pairwise_map.mp (nodup_gather keyed)
    rw [pairwise_map]
    refine (pairwise_flatten.mp hkeys).2.imp_of_mem ?_
    intro b b' hb hb' hapart ob hob ob' hob'
    obtain ⟨e, he, hin⟩ := mem_flatMap.mp hob
    obtain ⟨e', he', hin'⟩ := mem_flatMap.mp hob'
    rw [((hgroup hb e he).2 ob hin).2, ((hgroup hb' e' he').2 ob' hin').2]
    exact hapart e he e' he'
  · intro chunk hchunk
    obtain ⟨b, hb, rfl⟩ := mem_map.mp hchunk
    exact mt (Greedy.flatMap_eq_nil fun e he => (hgroup hb e he).1).mp (hfits b hb).1
  · intro chunk hchunk
    obtain ⟨b, hb, rfl⟩ := mem_map.mp hchunk
    obtain ⟨firsts, hin, hkeys, hsizes⟩ := exists_firsts (hkeyed ▸ (hsub hb).subset)
    have hcount : firsts.length = b.length := by rw [← length_map, hkeys, length_map]
    refine ⟨firsts, hin, ?_, ?_, ?_⟩
    · rw [hkeys]
      exact ((hsub hb).map Prod.fst).nodup (nodup_gather keyed)
    · intro ob hob
      obtain ⟨e, he, hdebt⟩ := mem_flatMap.mp hob
      rw [((hgroup hb e he).2 ob hdebt).2]
      exact mem_map.mp (hkeys ▸ mem_map_of_mem he)
    · rw [hsizes, hcount]
      exact (hfits b hb).2

end Chunks

section Reads

variable {g : GroupStorage} {found : Key → Option Record} {keys : List Key} {maxBytes : Nat}

def ownedOnly (o : Option Record) : Option Record := o.filter fun r => r.owned

theorem getMany_of_read (h : ∀ k ∈ keys, g.read k = .ok (found k)) : g.getMany keys = .ok (keys.map found) := by
  have hone (k : Key) (hk : k ∈ keys) := GroupStorage.read_eq_ok.mp (h k hk)
  refine bind_eq_ok.mpr ⟨keys.map fun k => (k, k.encode .tags, k.encode .logs), ?_, ?_⟩
  · refine mapM_ok_of_forall fun k hk => ?_
    rw [Key.toBytes_tags_eq_ok.mpr ⟨(hone k hk).1, rfl⟩, Key.toBytes_logs_eq_ok.mpr ⟨(hone k hk).1, rfl⟩]
    rfl
  · rw [mapM_map]
    exact mapM_ok_of_forall fun k hk => (hone k hk).2

theorem ReadAcc.add_append (xs ys : List (Option Record)) (acc : ReadAcc) : add maxBytes (xs ++ ys) acc =
      if (add maxBytes xs acc).2 then add maxBytes xs acc
      else add maxBytes ys (add maxBytes xs acc).1 := by
  induction xs generalizing acc with
  | nil => rfl
  | cons o xs ih =>
    cases o with
    | none => exact ih _
    | some r =>
      rw [cons_append, add, add]
      split
      · split
        · rfl
        · exact ih _
      · exact ih _

def ReadAcc.Takes (found : List (Option Record)) (acc last : ReadAcc) : Prop :=
  ∃ m ≤ found.length, last.consumed = acc.consumed + m ∧
    last.records = acc.records ++ (found.take m).filterMap ownedOnly ∧ (found ≠ [] → acc.records = [] → 1 ≤ m)

theorem ReadAcc.Takes.cons {o : Option Record} {found : List (Option Record)} {acc next last : ReadAcc}
    (h : Takes found next last) (hconsumed : next.consumed = acc.consumed + 1)
    (hrecords : next.records = acc.records ++ (ownedOnly o).toList) : Takes (o :: found) acc last := by
  obtain ⟨m, hm, hcons, hrecs, _⟩ := h
  refine ⟨m + 1, Nat.succ_le_succ hm, by omega, ?_, fun _ _ => Nat.succ_le_succ (Nat.zero_le m)⟩
  rw [hrecs, hrecords, take_succ_cons, append_assoc, filterMap_cons]
  cases ownedOnly o <;> rfl

theorem ReadAcc.add_takes (found : List (Option Record)) (acc : ReadAcc) :
    Takes found acc (add maxBytes found acc).1 := by
  induction found generalizing acc with
  | nil => exact ⟨0, Nat.le_refl _, rfl, by simp [add], fun hne => absurd rfl hne⟩
  | cons o found ih =>
    cases o with
    | none => exact (ih _).cons rfl (append_nil _).symm
    | some r =>
      by_cases howned : r.owned = true
      · by_cases hfull : acc.records ≠ [] ∧ acc.size + recordSize r > maxBytes
        · rw [add, if_pos howned, if_pos hfull]
          exact ⟨0, Nat.zero_le _, rfl, by simp, fun _ hnil => absurd hnil hfull.1⟩
        · rw [add, if_pos howned, if_neg hfull]
          refine (ih _).cons rfl ?_
          rw [ownedOnly, Option.filter_some, if_pos howned]
          rfl
      · rw [add, if_neg howned]
        refine (ih _).cons rfl ?_
        rw [ownedOnly, Option.filter_some, if_neg howned]
        exact (append_nil _).symm

variable {c : Cluster} {node : String} {pid : Nat} {I : World → Prop}

theorem yields_read (h : Undisturbed c I) (hstore : ∀ w, I w → w.shared.storage node (c.groupFor pid) = g)
    (hread : ∀ k ∈ keys, g.read k = .ok (found k)) (maxBytes : Nat) (hfuel : keys.length < c.fuel) :
    Yields I (LocalStore.read c node pid keys maxBytes) fun r =>
      (keys ≠ [] → 1 ≤ r.2) ∧ r.1 = ((keys.take r.2).map found).filterMap ownedOnly := by
  have hflat := chunks_flatten (show 0 < applyBatch by decide) keys
  obtain ⟨last, hlast⟩ : ∃ last, last = (add maxBytes (keys.map found) {}).1 := ⟨_, rfl⟩
  have hdone : (keys ≠ [] → 1 ≤ last.consumed) ∧
      last.records = ((keys.take last.consumed).map found).filterMap ownedOnly := by
    obtain ⟨m, _, hconsumed, hrecords, hpos⟩ := add_takes (keys.map found) {}
    rw [← hlast, Nat.zero_add] at hconsumed
    rw [hlast, hrecords, ← hlast, hconsumed, map_take]
    exact ⟨fun hne => hpos (mt map_eq_nil_iff.mp hne) rfl, rfl⟩
  refine iterate (J := fun b : List (List Key) × ReadAcc => (∀ chunk ∈ b.1, chunk ≠ [] ∧ chunk ⊆ keys) ∧
      (add maxBytes (b.1.flatten.map found) b.2).1 = last) (fun b => b.1.flatten.length) ?_ ?_ ?_
  · rintro ⟨rest, acc⟩ ⟨hchunks, hacc⟩
    cases rest with
    | nil =>
      have heq : acc = last := hacc
      rw [heq]
      exact ret hdone
    | cons chunk rest =>
      obtain ⟨hne, hin⟩ := hchunks chunk mem_cons_self
      have hfound : Yields I (c.readSession node (c.groupFor pid) fun g => g.getMany chunk)
          fun r => r = chunk.map found := by
        apply h.readSession
        intro w hw
        exact ⟨_, by rw [hstore w hw, getMany_of_read fun k hk => hread k (hin hk)], rfl⟩
      apply bind hfound
      rintro _ rfl
      rw [flatten_cons, map_append, add_append] at hacc
      rcases hadd : add maxBytes (chunk.map found) acc with ⟨acc', stop⟩
      rw [hadd] at hacc
      cases stop with
      | true =>
        have heq : acc' = last := hacc
        rw [heq]
        exact ret hdone
      | false =>
        refine ret ⟨⟨fun ch hch => hchunks ch (mem_cons_of_mem _ hch), hacc⟩, ?_⟩
        have hpos := length_pos_iff.mpr hne
        dsimp only
        rw [flatten_cons, length_append]
        omega
  · refine ⟨fun chunk hchunk => ⟨chunks_ne_nil (by decide) keys chunk hchunk, ?_⟩, by rw [hflat, hlast]⟩
    exact fun k hk => hflat ▸ mem_flatten.mpr ⟨chunk, hchunk, hk⟩
  · rw [hflat]
    exact hfuel

def readAll (c : Cluster) (node : String) (pid : Nat) (keys : List Key) (maxBytes : Nat) : Ae (List Record) :=
  c.loop (fun (rest, all) =>
    if rest = [] then pure (.inr all)
    else do
      let (records, consumed) ← LocalStore.read c node pid rest maxBytes
      pure (.inl (rest.drop consumed, all ++ records))) (keys, ([] : List Record))

theorem yields_readAll (h : Undisturbed c I) (hstore : ∀ w, I w → w.shared.storage node (c.groupFor pid) = g)
    (hread : ∀ k ∈ keys, g.read k = .ok (found k)) (maxBytes : Nat) (hfuel : keys.length < c.fuel) :
    Yields I (readAll c node pid keys maxBytes) fun all => all = (keys.map found).filterMap ownedOnly := by
  refine iterate (J := fun b : List Key × List Record =>
      ∃ done, keys = done ++ b.1 ∧ b.2 = (done.map found).filterMap ownedOnly) (fun b => b.1.length) ?_
    ⟨[], rfl, rfl⟩ hfuel
  rintro ⟨rest, all⟩ ⟨done, hkeys, hall⟩
  dsimp only at hkeys hall ⊢
  split
  · rename_i hnil
    rw [hnil, append_nil] at hkeys
    exact ret (hkeys ▸ hall)
  · rename_i hne
    have hshort : rest.length < c.fuel := by
      rw [hkeys, length_append] at hfuel
      omega
    apply bind (yields_read h hstore (fun k hk => hread k (hkeys ▸ mem_append_right _ hk)) maxBytes hshort)
    rintro ⟨records, consumed⟩ ⟨hprogress, hrecords⟩
    dsimp only at hprogress hrecords
    have hone := hprogress hne
    have hpos := length_pos_iff.mpr hne
    refine ret ⟨⟨done ++ rest.take consumed, ?_, ?_⟩, ?_⟩
    · rw [append_assoc, take_append_drop, hkeys]
    · rw [map_append, filterMap_append, hall, hrecords]
    · dsimp only
      rw [length_drop]
      omega

end Reads

theorem batching_complete (records : List Record) {obligations : List ObligationKey} {covers : List (Key × Record)}
    {cover : ObligationKey → Record} (hcover : ∀ ob ∈ obligations, covers.lookup ob.key = some (cover ob))
    (maxBytes : Nat) {c : Cluster} {node : String} {pid : Nat} {keys : List Key} {found : Key → Option Record}
    {w : World}
    (hquiet : ∀ tick sh, (c.env.step tick sh).storage node (c.groupFor pid) = sh.storage node (c.groupFor pid))
    (hread : ∀ k ∈ keys, (w.shared.storage node (c.groupFor pid)).read k = .ok (found k))
    (hfuel : keys.length < c.fuel) :
    ((batches records).flatten = records ∧ ∀ batch ∈ batches records, batch ≠ [] ∧ batch.length ≤ applyBatch ∧
      ((batch.map recordSize).sum ≤ applyBatchBytes ∨ batch.length = 1)) ∧
    (∃ chunks, obligationChunks obligations covers maxBytes = .ok chunks ∧
      Apportioned cover obligations maxBytes chunks) ∧
    ∃ w', readAll c node pid keys maxBytes w = (.ok ((keys.map found).filterMap ownedOnly), w') := by
  refine ⟨⟨batches_flatten records, batches_fit records⟩, obligationChunks_apportioned hcover maxBytes, ?_⟩
  have hundisturbed : Undisturbed c fun v =>
      v.shared.storage node (c.groupFor pid) = w.shared.storage node (c.groupFor pid) :=
    ⟨fun v hv => (hquiet v.tick v.shared).trans hv, fun _ _ hv => hv⟩
  obtain ⟨_, w', hrun, _, rfl⟩ := yields_readAll hundisturbed (fun _ hv => hv) hread maxBytes hfuel w rfl
  exact ⟨w', hrun⟩

namespace Sample

def foundVersion (k : Key) : Option Record := if k = (version 5).key then some (version 5) else none

theorem stored_version_read_once :
    (∃ chunks, obligationChunks [owed] [((version 5).key, version 5)] 1 = .ok chunks ∧ chunks.flatten.Perm [owed]) ∧
    ∃ w', readAll (cluster (still 0)) "a" 0 [(version 6).key, (version 5).key] 1 (only ["b"] "a" 5) =
      (.ok [version 5], w') := by
  have hcover (ob : ObligationKey) (h : ob ∈ [owed]) :
      [((version 5).key, version 5)].lookup ob.key = some (version 5) := by
    rw [mem_singleton.mp h]
    decide +kernel
  have hread : ∀ k ∈ [(version 6).key, (version 5).key],
      ((only ["b"] "a" 5).shared.storage "a" ((cluster (still 0)).groupFor 0)).read k = .ok (foundVersion k) := by
    decide +kernel
  have hfuel : [(version 6).key, (version 5).key].length < (cluster (still 0)).fuel := by decide
  have hvalue : ([(version 6).key, (version 5).key].map foundVersion).filterMap ownedOnly = [version 5] := by
    decide +kernel
  obtain ⟨_, ⟨chunks, hchunks, hdebts⟩, w', hrun⟩ :=
    batching_complete [version 5] hcover 1 (fun _ _ => rfl) hread hfuel
  rw [hvalue] at hrun
  exact ⟨⟨chunks, hchunks, hdebts.each⟩, w', hrun⟩

end Sample

end Tourillon
