import Tourillon.AntiEntropy.LocalSpec

namespace Tourillon

open Prog Protocol Sequence ReadAcc List

variable {found : List (Option Record)}

theorem ReadAcc.add_cases {b : Nat} (ho : ∀ r, some r ∈ found → r.owned = true) (acc : ReadAcc) :
    ∃ m, m ≤ found.length ∧ (add b found acc).1.consumed = acc.consumed + m ∧
      (add b found acc).1.records = acc.records ++ (found.take m).reduceOption ∧
      ((add b found acc).2 = false → m = found.length) ∧ (found ≠ [] → acc.records = [] → 1 ≤ m) := by
  induction found generalizing acc with
  | nil => exact ⟨0, le_refl _, rfl, by simp [add], fun _ => rfl, fun h => absurd rfl h⟩
  | cons o found ih =>
    have ho' : ∀ r, some r ∈ found → r.owned = true := fun r hr => ho r (by simp [hr])
    cases o with
    | none =>
      obtain ⟨m, hm, hc, hr, hs, _⟩ := ih ho' { acc with consumed := acc.consumed + 1 }
      refine ⟨m + 1, by simpa using hm, ?_, ?_, ?_, fun _ _ => by omega⟩
      · rw [add, hc]
        dsimp only
        omega
      · rw [add, hr, take_succ_cons, reduceOption_cons_of_none]
      · intro hf
        rw [length_cons, hs hf]
    | some r =>
      have hown := ho r (by simp)
      by_cases hfull : acc.records ≠ [] ∧ acc.size + recordSize r > b
      · have hadd : add b (some r :: found) acc = (acc, true) := by
          simp only [add, hown, if_true, if_pos hfull]
        rw [hadd]
        exact ⟨0, Nat.zero_le _, rfl, by simp, fun h => absurd h (by simp),
          fun _ h => absurd h hfull.1⟩
      · obtain ⟨m, hm, hc, hr, hs, _⟩ := ih ho'
          { records := acc.records ++ [r]
            consumed := acc.consumed + 1
            size := acc.size + recordSize r }
        have hadd : add b (some r :: found) acc = add b found
            { records := acc.records ++ [r]
              consumed := acc.consumed + 1
              size := acc.size + recordSize r } := by
          simp only [add, hown, if_true, if_neg hfull]
        rw [hadd]
        refine ⟨m + 1, by simpa using hm, ?_, ?_, ?_, fun _ _ => by omega⟩
        · rw [hc]
          dsimp only
          omega
        · rw [hr, take_succ_cons, reduceOption_cons_of_some, append_assoc]
          rfl
        · intro hf
          rw [length_cons, hs hf]

theorem foundAt_records {g : GroupStorage} {ks : List Key} (h : List.Forall₂ (FoundAt g) ks found) :
    (∀ r ∈ found.reduceOption, CleanRecord r ∧ r.key ∈ ks ∧ r.key ∈ g.held) ∧
      ∀ k ∈ ks, k ∈ g.held → k ∈ found.reduceOption.map fun r => r.key := by
  induction h with
  | nil => simp
  | @cons k o ks found hk _ ih =>
    cases o with
    | none =>
      rw [reduceOption_cons_of_none]
      refine ⟨?_, ?_⟩
      · intro r hr
        obtain ⟨hc, hm, hh⟩ := ih.1 r hr
        exact ⟨hc, mem_cons_of_mem _ hm, hh⟩
      · intro q hq hh
        rcases mem_cons.mp hq with rfl | hq
        · exact absurd hh hk
        · exact ih.2 q hq hh
    | some r =>
      obtain ⟨rfl, hclean, hheld⟩ := hk
      rw [reduceOption_cons_of_some]
      refine ⟨?_, ?_⟩
      · intro r' hr'
        rcases mem_cons.mp hr' with rfl | hr'
        · exact ⟨hclean, by simp, hheld⟩
        · obtain ⟨hc, hm, hh⟩ := ih.1 r' hr'
          exact ⟨hc, mem_cons_of_mem _ hm, hh⟩
      · intro q hq hh
        rw [map_cons]
        rcases mem_cons.mp hq with rfl | hq
        · exact mem_cons_self ..
        · exact mem_cons_of_mem _ (ih.2 q hq hh)

theorem batches_flatten (records : List Record) : (batches records).flatten = records := by
  have hgen : ∀ acc : BatchAcc,
      (records.foldl BatchAcc.add acc).done.flatten ++ (records.foldl BatchAcc.add acc).current =
        acc.done.flatten ++ acc.current ++ records := by
    induction records with
    | nil =>
      intro acc
      simp
    | cons r records ih =>
      intro acc
      rw [foldl_cons, ih, BatchAcc.add]
      split <;> simp
  have h := hgen {}
  unfold batches
  dsimp only
  split
  · rename_i hnil
    rw [hnil] at h
    simpa using h
  · simpa using h

theorem mem_of_mem_batches {records batch : List Record} {r : Record} (hb : batch ∈ batches records)
    (hr : r ∈ batch) : r ∈ records := by
  rw [← batches_flatten records]
  exact mem_flatten.mpr ⟨batch, hb, hr⟩

namespace Setting

variable [Blake2b] {S : Setting} {acc : ReadAcc} {w : World} {rest : List (List Key)}

def Supplied (S : Setting) (node : String) (pid : Nat) (keys : List Key)
    (r : List Record × Nat) (w : World) : Prop :=
  ((∀ q ∈ r.1, CleanRecord q ∧ q.key ∈ keys.take r.2) ∧ (keys ≠ [] → 1 ≤ r.2)) ∧
    (S.c.groupFor S.key.pid = S.c.groupFor pid → S.key ∈ keys.take r.2 →
      S.Seen node (S.key ∈ r.1.map fun q => q.key) w)

variable {node : String} {pid : Nat} {keys : List Key}

theorem stable_supplied {r : List Record × Nat} : S.protocol.Stable (S.Supplied node pid keys r) :=
  (Stable.const _).and (stable_seen _ _).imp.imp

def Reading (S : Setting) (node : String) (pid : Nat) (keys : List Key)
    (b : List (List Key) × ReadAcc) (w : World) : Prop :=
  ∃ done : List Key, (keys = done ++ b.1.flatten ∧ b.2.consumed = done.length ∧
      ∀ q ∈ b.2.records, CleanRecord q ∧ q.key ∈ done) ∧
    (S.c.groupFor S.key.pid = S.c.groupFor pid → S.key ∈ done →
      S.Seen node (S.key ∈ b.2.records.map fun q => q.key) w)

theorem stable_reading {b : List (List Key) × ReadAcc} : S.protocol.Stable (S.Reading node pid keys b) :=
  Stable.exists fun _ => (Stable.const _).and (stable_seen _ _).imp.imp

theorem Reading.supplied (h : S.Reading node pid keys (rest, acc) w) (hstop : keys ≠ [] → 1 ≤ acc.consumed) :
    S.Supplied node pid keys (acc.records, acc.consumed) w := by
  obtain ⟨done, ⟨rfl, hcons, hrec⟩, hseen⟩ := h
  have htake : (done ++ rest.flatten).take acc.consumed = done := by rw [hcons, take_left]
  refine ⟨⟨?_, hstop⟩, ?_⟩
  · dsimp only
    rw [htake]
    exact hrec
  · dsimp only
    rw [htake]
    exact hseen

theorem Seen.records {old new : List Record} {done taken : List Key} {held : Prop}
    (hold : ∀ q ∈ old, q.key ∈ done) (hnew : ∀ q ∈ new, q.key ∈ taken)
    (hheld : S.key ∈ taken → (S.key ∈ (new.map fun q => q.key) ↔ held))
    (hd : S.key ∈ done → S.Seen node (S.key ∈ old.map fun q => q.key) w)
    (ht : S.key ∈ taken → S.Seen node held w) (hm : S.key ∈ done ++ taken) :
    S.Seen node (S.key ∈ (old ++ new).map fun q => q.key) w := by
  have hnold (h : S.key ∉ done) : S.key ∉ old.map fun q => q.key := by
    intro hk
    obtain ⟨q, hq, hqk⟩ := mem_map.mp hk
    exact h (hqk ▸ hold q hq)
  have hnnew (h : S.key ∉ taken) : S.key ∉ new.map fun q => q.key := by
    intro hk
    obtain ⟨q, hq, hqk⟩ := mem_map.mp hk
    exact h (hqk ▸ hnew q hq)
  rw [map_append, mem_append]
  by_cases hin : S.key ∈ taken
  · have hs := (ht hin).congr (hheld hin).symm
    by_cases hdone : S.key ∈ done
    · exact (hd hdone).or hs
    · exact hs.congr ⟨.inr, fun h => h.resolve_left (hnold hdone)⟩
  · have hdone := (mem_append.mp hm).resolve_right hin
    exact (hd hdone).congr ⟨.inl, fun h => h.resolve_right (hnnew hin)⟩

theorem reading_step {chunk : List Key} {found : List (Option Record)}
    (h : S.Reading node pid keys (chunk :: rest, acc) w)
    (hs : S.Snapshot node (S.c.groupFor pid) (fun g => g.getMany chunk) found w) (maxBytes : Nat) :
    ∃ m, S.Reading node pid keys (chunk.drop m :: rest, (add maxBytes found acc).1) w ∧
      ((add maxBytes found acc).2 = false → chunk.drop m = []) ∧
      (chunk ≠ [] → 1 ≤ (add maxBytes found acc).1.consumed) := by
  obtain ⟨done, ⟨hkeys, hcons, hrec⟩, hseen⟩ := h
  obtain ⟨g, ⟨hg, hget⟩, hsnap⟩ := hs
  have hfound := getMany_found hg.toSound hget
  have hlen := hfound.length_eq
  have howned (r : Record) (hr : some r ∈ found) : r.owned = true :=
    ((foundAt_records hfound).1 r (reduceOption_mem_iff.mpr hr)).1.owned
  obtain ⟨m, hm, hc, hr, hstop, hpos⟩ := add_cases (b := maxBytes) howned acc
  obtain ⟨hnew, hheld⟩ := foundAt_records (forall₂_take m hfound)
  refine ⟨m, ⟨done ++ chunk.take m, ⟨?_, ?_, ?_⟩, ?_⟩, ?_, ?_⟩
  · rw [hkeys, flatten_cons, flatten_cons, append_assoc, ← append_assoc (chunk.take m), take_append_drop]
  · rw [hc, hcons, length_append, length_take]
    omega
  · intro q hq
    rw [hr] at hq
    rcases mem_append.mp hq with hq | hq
    · obtain ⟨hcl, hd⟩ := hrec q hq
      exact ⟨hcl, mem_append_left _ hd⟩
    · obtain ⟨hcl, hk, _⟩ := hnew q hq
      exact ⟨hcl, mem_append_right _ hk⟩
  · intro hgroup hkey
    dsimp only
    rw [hr]
    refine Seen.records (fun q hq => (hrec q hq).2) (fun q hq => (hnew q hq).2.1) ?_
      (hseen hgroup) (fun _ => hsnap hgroup.symm) hkey
    intro htaken
    refine ⟨?_, hheld _ htaken⟩
    intro hk
    obtain ⟨q, hq, hqk⟩ := mem_map.mp hk
    exact hqk ▸ (hnew q hq).2.2
  · intro hf
    rw [hstop hf, ← hlen, drop_length]
  · intro hne
    rw [hc, hcons]
    cases done with
    | cons d done =>
      rw [length_cons]
      omega
    | nil =>
      have hfne : found ≠ [] := by
        rintro rfl
        exact hne (eq_nil_of_length_eq_zero hlen)
      have hnil : acc.records = [] := by
        rw [eq_nil_iff_forall_not_mem]
        intro q hq
        cases (hrec q hq).2
      have := hpos hfne hnil
      omega

theorem spec_read (hn : node = S.s.self ∨ node = S.s.peer) (pid : Nat) (keys : List Key) (maxBytes : Nat) :
    S.protocol.Spec (fun _ => True) (LocalStore.read S.c node pid keys maxBytes) (S.Supplied node pid keys) := by
  refine (Spec.iterate (I := fun b w => (∀ chunk ∈ b.1, chunk ≠ []) ∧ S.Reading node pid keys b w) ?_ _ _).pre ?_
  · rintro ⟨rest, acc⟩
    cases rest with
    | nil =>
      refine Spec.ret ?_
      rintro w _ ⟨_, h⟩
      refine h.supplied fun hne => ?_
      obtain ⟨done, ⟨hkeys, hcons, _⟩, _⟩ := h
      rw [hcons]
      refine length_pos_iff.mpr ?_
      rintro rfl
      exact hne hkeys
    | cons chunk rest =>
      refine Spec.seq ((Stable.const _).and stable_reading)
        (spec_readSession hn _ _).anywhere fun found => ?_
      rcases hadd : add maxBytes found acc with ⟨acc', stop⟩
      cases stop with
      | true =>
        refine Spec.ret ?_
        rintro w _ ⟨⟨hne, h⟩, hs⟩
        obtain ⟨m, hread, _, hpos⟩ := reading_step h hs maxBytes
        rw [hadd] at hread hpos
        exact hread.supplied fun _ => hpos (hne chunk (by simp))
      | false =>
        refine Spec.ret ?_
        rintro w _ ⟨⟨hne, h⟩, hs⟩
        obtain ⟨m, hread, hstop, _⟩ := reading_step h hs maxBytes
        rw [hadd] at hread hstop
        rw [hstop rfl] at hread
        exact ⟨fun ch hch => hne ch (by simp [hch]), hread⟩
  · intro w _ _
    refine ⟨chunks_ne_nil (by decide) keys, [], ⟨?_, rfl, by simp⟩, by simp⟩
    rw [chunks_flatten (by decide)]
    rfl

variable {records : List Record}

theorem delivery_of_applied {sh : Shared} {g : GroupStorage} (hJ : S.J sh)
    (hn : node = S.s.self ∨ node = S.s.peer) (hrep : S.s.view.isReplica pid node = true)
    (hr : ∀ r ∈ records, r.key.pid = pid)
    (hk : node = S.src → S.src ≠ S.dst → S.key ∈ (records.map fun r => r.key) → S.c.Kept S.toFocus sh)
    (h : AppliedTo (S.c.policy node) records (sh.storage node (S.c.groupFor pid)) g) :
    Delivery S.c S.s S.toFocus sh node pid g := by
  have hgood := S.good sh hJ node hn (S.c.groupFor pid)
  refine ⟨hn, hrep, ⟨h.clean, ?_⟩, h.grows, ?_, ?_⟩
  · intro q hq
    rcases h.origin q hq with hold | ⟨r, hrm, rfl⟩
    · exact hgood.placed q hold
    · rw [hr r hrm]
  · intro q hq
    rcases h.origin q hq with hold | ⟨r, hrm, rfl⟩
    · exact .inl hold
    · exact .inr (hr r hrm)
  · intro hsrc hne hin hout
    rcases h.origin _ hin with hold | ⟨r, hrm, hrk⟩
    · exact absurd hold hout
    · exact hk hsrc hne (hrk ▸ mem_map.mpr ⟨r, hrm, rfl⟩)

def Sent (S : Setting) (node : String) (records : List Record) (w : World) : Prop :=
  node = S.dst → S.key ∈ (records.map fun r => r.key) → S.c.Kept S.toFocus w.shared

theorem stable_sent : S.protocol.Stable (S.Sent node records) := stable_kept.imp.imp

def Covers (S : Setting) (node : String) (records : List Record) (w : World) : Prop :=
  node = S.src → S.src ≠ S.dst → S.key ∈ (records.map fun r => r.key) → S.c.Kept S.toFocus w.shared

theorem stable_covers : S.protocol.Stable (S.Covers node records) := stable_kept.imp.imp.imp

variable (hn : node = S.s.self ∨ node = S.s.peer) (hrep : S.s.view.isReplica pid node = true)
  (hr : ∀ r ∈ records, CleanRecord r ∧ r.key.pid = pid)

include hn hrep hr

theorem spec_applyBatch : S.protocol.Spec (S.Covers node records)
      (S.c.writeSession node (S.c.groupFor pid) fun s => (S.c.policy node).apply s records)
      fun _ w => S.Sent node records w := by
  refine Spec.bind (spec_interfere stable_covers) fun _ => ?_
  refine Spec.bind (M := fun _ w => S.Sent node records w) (Spec.act ?_) fun ds => ?_
  · intro w hw hcov
    obtain ⟨happ, hkept⟩ := apply_session (fun r hrm => (hr r hrm).1)
      (S.good w.shared hw.1 node hn (S.c.groupFor pid)).toClean
      (Prod.eta (GroupSessionManager.session (fun s => (S.c.policy node).apply s records)
        (S.c.env.commit w.tick) (w.shared.storage node (S.c.groupFor pid)))).symm
    have hdel := delivery_of_applied hw.1 hn hrep (fun r hrm => (hr r hrm).2) hcov happ
    refine ⟨.inr (Move.write w node pid _ hdel), ?_⟩
    intro ds hds hdst hkey
    obtain ⟨r, hrm, hrk⟩ := mem_map.mp hkey
    have hret := hkept ds (mapError_eq_ok hds) r hrm
    rw [hrk] at hret
    have hpid : S.key.pid = pid := hrk ▸ (hr r hrm).2
    show S.c.Kept S.toFocus (w.shared.withGroup node (S.c.groupFor pid) _)
    rw [Cluster.Kept, Cluster.heldBy, Shared.storage_withGroup, if_pos ⟨hdst.symm, by rw [hpid]⟩, ← hdst]
    exact hret
  · refine Spec.bind (spec_interfere stable_sent) fun _ => ?_
    exact Spec.ret fun _ _ h => h

theorem spec_applyResult : S.protocol.Spec (S.Covers node records) (LocalStore.applyResult S.c node pid records)
      fun _ w => S.Sent node records w := by
  refine Spec.bind ((Spec.collect (fun done w => S.Covers node records w ∧
    ∀ x : List Record × List WriteDisposition, x ∈ done → S.Sent node x.1 w) ?_).pre ?_)
    fun outcomes => Spec.ret ?_
  · intro done batch hb
    refine Spec.seq (stable_covers.and (Stable.forall fun x => stable_sent.imp))
      ((spec_applyBatch hn hrep fun r hrb => hr r (mem_of_mem_batches hb hrb)).pre ?_) fun ds => ?_
    · intro w _ h hsrc hne hkey
      obtain ⟨r, hrb, hrk⟩ := mem_map.mp hkey
      exact h.1 hsrc hne (mem_map.mpr ⟨r, mem_of_mem_batches hb hrb, hrk⟩)
    · refine Spec.bind (spec_interfere ((stable_covers.and
        (Stable.forall fun x => stable_sent.imp)).and stable_sent)) fun _ => Spec.ret ?_
      rintro w _ ⟨⟨hcov, hdone⟩, hsent⟩
      refine ⟨hcov, ?_⟩
      intro x hx
      rcases mem_append.mp hx with hx | hx
      · exact hdone x hx
      · rw [mem_singleton.mp hx]
        exact hsent
  · intro w _ h
    exact ⟨h, fun x hx => by cases hx⟩
  · rintro w _ ⟨hlen, _, hsent⟩ hdst hkey
    rw [← batches_flatten records] at hkey
    obtain ⟨r, hrm, hrk⟩ := mem_map.mp hkey
    obtain ⟨batch, hb, hrb⟩ := mem_flatten.mp hrm
    obtain ⟨ds, hds⟩ := (exists_mem_zip hlen).1 batch hb
    exact hsent _ hds hdst (mem_map.mpr ⟨r, hrb, hrk⟩)

theorem spec_apply : S.protocol.Spec (S.Covers node records) (LocalStore.apply S.c node pid records)
      fun _ w => S.Sent node records w := by
  refine Spec.bind (spec_applyResult hn hrep hr) fun result => ?_
  exact Spec.ret fun _ _ h => h

end Setting

end Tourillon
