import Tourillon.AntiEntropy.ResponderSpec

namespace Tourillon

open Endian Exceptional Prog Protocol List

theorem wanted_iff {pid : Nat} {requested : List Bytes} {r : Record} (hr : CleanRecord r) :
    wanted pid requested r = true ↔ r.key.pid = pid ∧ r.key.encode .tags ∈ requested := by
  have henc : r.key.toBytes .tags = .ok (r.key.encode .tags) := Key.toBytes_tags_eq_ok.mpr ⟨hr.encodable, rfl⟩
  simp [wanted, henc, hr.owned]

namespace Setting

variable [Blake2b] {S : Setting} {A : World → Prop} {keys : List Key} {records : List Record} {pid : Nat}
  {w : World} {n : Nat} {raws : List Bytes} {scope : Scope} {requested : List Bytes}

theorem spec_tallied (hA : S.protocol.Stable A) (f : SessionTally → SessionTally) :
    S.protocol.Spec A (PeerSync.tallied f) fun _ => A :=
  Spec.modify fun w hw h => ⟨.inr (Move.tally w _), hA w _ hw (Move.tally w _) h⟩

theorem spec_spendRepairs : S.protocol.Spec A S.s.spendRepairs fun _ => A :=
  Spec.bind (Spec.get (Q := fun _ => A) fun _ _ h => h) fun _ => Spec.guard

theorem spec_spendScan (hA : S.protocol.Stable A) (count : Nat) :
    S.protocol.Spec A (S.s.spendScan count) fun _ => A := by
  refine Spec.bind (spec_tallied hA _) fun _ => ?_
  exact Spec.bind (Spec.get (Q := fun _ => A) fun _ _ h => h) fun _ => Spec.guard

theorem Faces.peer_eq (h : S.s.Faces S.toFocus) (hs : S.src = S.s.self) : S.s.peer = S.dst := by
  rcases h with ⟨_, hd⟩ | ⟨hp, _⟩
  · exact hd.symm
  · exact absurd (hs.symm.trans hp) S.distinct

theorem Faces.self_eq (h : S.s.Faces S.toFocus) (hs : S.src = S.s.peer) : S.s.self = S.dst := by
  rcases h with ⟨hp, _⟩ | ⟨_, hd⟩
  · exact absurd (hp.symm.trans hs) S.distinct
  · exact hd.symm

theorem covers_peer (hrep : S.s.view.isReplica pid S.s.peer = true) (hk : ∀ q ∈ keys, q.pid = pid)
    (h : S.Supplied S.s.self pid keys (records, n) w) : S.Covers S.s.peer records w := by
  intro hsrc hne hkey
  obtain ⟨r, hr, hrk⟩ := mem_map.mp hkey
  have htake := hrk ▸ (h.1.1 r hr).2
  have hpid := hk _ (mem_of_mem_take htake)
  rcases S.peerClosed hsrc hne with hd | hno
  · exact (h.2 (by rw [hpid]) htake).1 hkey hd
  · rw [hpid, hrep] at hno
    cases hno

def Pushed (S : Setting) (keys : List Key) (w : World) : Prop :=
  S.s.Faces S.toFocus → S.src = S.s.self → S.key ∈ keys → S.Settled w

theorem stable_pushed : S.protocol.Stable (S.Pushed keys) := stable_settled.imp.imp.imp

theorem pushed_step (hk : ∀ q ∈ keys, q.pid = pid) (h : S.Supplied S.s.self pid keys (records, n) w)
    (hsent : S.Sent S.s.peer records w) : S.Pushed (keys.take n) w := by
  intro hf hsrc hkey
  have hseen := h.2 (by rw [hk _ (mem_of_mem_take hkey)]) hkey
  by_cases hin : S.key ∈ records.map fun q => q.key
  · exact kept_settled (hsent (Faces.peer_eq hf hsrc) hin)
  · exact hseen.2 hin hsrc.symm

theorem spec_push (hs : scope.pids = [pid]) (hrep : S.s.view.isReplica pid S.s.peer = true)
    (hk : ∀ q ∈ keys, q.pid = pid) :
    S.protocol.Spec (fun _ => True) (S.s.push S.c scope pid keys) fun _ => S.Pushed keys := by
  refine (Spec.iterate (I := fun ks w => (∀ q ∈ ks, q.pid = pid) ∧
    ∃ done, keys = done ++ ks ∧ S.Pushed done w) ?_ _ _).pre ?_
  · intro ks
    split
    · rename_i hnil
      refine Spec.ret ?_
      rintro w _ ⟨_, done, hdone, hp⟩
      rw [hnil, append_nil] at hdone
      exact hdone ▸ hp
    · refine Spec.bind spec_spendRepairs fun _ => ?_
      have hstable : S.protocol.Stable fun w => (∀ q ∈ ks, q.pid = pid) ∧
          ∃ done, keys = done ++ ks ∧ S.Pushed done w :=
        (Stable.const _).and (Stable.exists fun _ => (Stable.const _).and stable_pushed)
      refine Spec.seq hstable (spec_read self_end pid ks _).anywhere ?_
      rintro ⟨records, n⟩
      have hnext (w : World) (h : ((∀ q ∈ ks, q.pid = pid) ∧ ∃ done, keys = done ++ ks ∧ S.Pushed done w) ∧
          S.Supplied S.s.self pid ks (records, n) w) (hsent : S.Sent S.s.peer records w) :
          (∀ q ∈ ks.drop n, q.pid = pid) ∧
            ∃ done, keys = done ++ ks.drop n ∧ S.Pushed done w := by
        obtain ⟨⟨hpid, done, hdone, hp⟩, hsup⟩ := h
        refine ⟨fun q hq => hpid q (mem_of_mem_drop hq), done ++ ks.take n, ?_, ?_⟩
        · rw [hdone, append_assoc, take_append_drop]
        · intro hf hsrc hkey
          rcases mem_append.mp hkey with hkey | hkey
          · exact hp hf hsrc hkey
          · exact pushed_step hpid hsup hsent hf hsrc hkey
      dsimp only
      split
      · rename_i hnil
        refine Spec.ret ?_
        intro w _ h
        refine hnext w h ?_
        intro _ hkey
        rw [hnil] at hkey
        cases hkey
      · refine Spec.assume (p := (∀ q ∈ ks, q.pid = pid) ∧ ∀ q ∈ records, CleanRecord q ∧
          q.key ∈ ks.take n) (fun _ _ h => ⟨h.1.1, h.2.1.1⟩) fun ⟨hpid, hrec⟩ => ?_
        have hclean (r : Record) (hr : r ∈ records) : CleanRecord r ∧ r.key.pid = pid :=
          ⟨(hrec r hr).1, hpid _ (mem_of_mem_take (hrec r hr).2)⟩
        refine Spec.seq (hstable.and stable_supplied) (spec_rpc (hstable.and stable_supplied)
          (fun _ => stable_sent) ((spec_handlePush hs hrep hclean).pre ?_)) fun response => ?_
        · intro w _ h
          exact covers_peer hrep hpid h.2
        · refine Spec.bind Spec.guard fun _ => ?_
          refine Spec.bind (spec_tallied ((hstable.and stable_supplied).and stable_sent) _)
            fun _ => ?_
          exact Spec.ret fun w _ h => hnext w h.1 h.2
  · intro w _ _
    refine ⟨hk, [], rfl, ?_⟩
    intro _ _ hkey
    cases hkey

def Pulled (S : Setting) (pid : Nat) (raws : List Bytes) (w : World) : Prop :=
  S.s.Faces S.toFocus → S.src = S.s.peer → S.key.pid = pid → S.key.encode .tags ∈ raws →
    S.Settled w

theorem stable_pulled : S.protocol.Stable (S.Pulled pid raws) := stable_settled.imp.imp.imp.imp

theorem decoded_mem (h : raws.mapM (Key.fromBytes .tags) = .ok keys) (n : Nat)
    (hk : S.key.encode .tags ∈ raws.take n) : S.key ∈ keys.take n := by
  have htake := mapM_eq_ok.mpr (forall₂_take n (mapM_eq_ok.mp h))
  obtain ⟨q, hq, hdec⟩ := exists_of_mem_mapM htake hk
  rw [Key.fromBytes_tags_encode S.encodable] at hdec
  exact Except.ok.inj hdec ▸ hq

theorem covers_self (hrep : S.s.view.isReplica pid S.s.self = true)
    (h : S.Supplied S.s.peer pid keys (records, n) w) :
    S.Covers S.s.self (records.filter (wanted pid requested)) w := by
  intro hsrc hne hkey
  obtain ⟨r, hr, hrk⟩ := mem_map.mp hkey
  obtain ⟨hrm, hw⟩ := mem_filter.mp hr
  obtain ⟨hclean, htake⟩ := h.1.1 r hrm
  have hpid : S.key.pid = pid := hrk ▸ ((wanted_iff hclean).mp hw).1
  rcases S.selfClosed hsrc hne with hd | hno
  · exact (h.2 (by rw [hpid]) (hrk ▸ htake)).1 (mem_map.mpr ⟨r, hrm, hrk⟩) hd
  · rw [hpid, hrep] at hno
    cases hno

theorem pulled_step (hsub : ∀ b ∈ raws, b ∈ requested) (h : S.FetchAnswered pid raws (records, n) w)
    (hsent : S.Sent S.s.self (records.filter (wanted pid requested)) w) : S.Pulled pid (raws.take n) w := by
  intro hf hsrc hpid hkey
  obtain ⟨keys, hdec, hsup⟩ := h
  have hseen := hsup.2 (by rw [hpid]) (decoded_mem hdec n hkey)
  by_cases hin : S.key ∈ records.map fun q => q.key
  · obtain ⟨r, hr, hrk⟩ := mem_map.mp hin
    refine kept_settled (hsent (Faces.self_eq hf hsrc) (mem_map.mpr ⟨r, ?_, hrk⟩))
    refine mem_filter.mpr ⟨hr, (wanted_iff (hsup.1.1 r hr).1).mpr ⟨by rw [hrk, hpid], ?_⟩⟩
    rw [hrk]
    exact hsub _ (mem_of_mem_take hkey)
  · exact hseen.2 hin hsrc.symm

theorem spec_pull (hs : scope.pids = [pid]) (hrep : S.s.view.isReplica pid S.s.self = true)
    (requested : List Bytes) : S.protocol.Spec (fun _ => True) (S.s.pull S.c scope pid requested)
      fun _ => S.Pulled pid requested := by
  refine (Spec.iterate (I := fun ks w => ∃ done, requested = done ++ ks ∧ S.Pulled pid done w) ?_ _ _).pre ?_
  · intro ks
    split
    · rename_i hnil
      refine Spec.ret ?_
      rintro w _ ⟨done, hdone, hp⟩
      rw [hnil, append_nil] at hdone
      exact hdone ▸ hp
    · refine Spec.bind spec_spendRepairs fun _ => ?_
      have hstable : S.protocol.Stable fun w => ∃ done, requested = done ++ ks ∧
          S.Pulled pid done w := Stable.exists fun _ => (Stable.const _).and stable_pulled
      refine Spec.seq hstable (spec_rpc hstable (fun _ => stable_fetchAnswered)
        (spec_handleFetch hs _ _).anywhere) ?_
      rintro ⟨records, n⟩
      dsimp only
      have hpre : S.protocol.Stable fun w => (∃ done, requested = done ++ ks ∧
          S.Pulled pid done w) ∧ S.FetchAnswered pid (ks.take S.s.page) (records, n) w :=
        hstable.and stable_fetchAnswered
      refine Spec.assume (p := ∀ r ∈ records, CleanRecord r) ?_ fun hrec => ?_
      · rintro w _ ⟨_, keys, _, hsup⟩ r hr
        exact (hsup.1.1 r hr).1
      · refine Spec.seq hpre ((spec_apply self_end hrep ?_).pre ?_) fun applied => ?_
        · intro r hr
          obtain ⟨hrm, hw⟩ := mem_filter.mp hr
          exact ⟨hrec r hrm, ((wanted_iff (hrec r hrm)).mp hw).1⟩
        · rintro w _ ⟨_, keys, _, hsup⟩
          exact covers_self hrep hsup
        · refine Spec.bind (spec_tallied (hpre.and stable_sent) _) fun _ => Spec.ret ?_
          rintro w _ ⟨⟨⟨done, hdone, hp⟩, hfetch⟩, hsent⟩
          have hsub : ∀ b ∈ ks.take S.s.page, b ∈ requested := by
            intro b hb
            rw [hdone]
            exact mem_append_right _ (mem_of_mem_take hb)
          have hstep := pulled_step hsub hfetch hsent
          refine ⟨done ++ (ks.take S.s.page).take n, ?_, ?_⟩
          · have htake : (ks.take S.s.page).take n = ks.take (min n (ks.take S.s.page).length) := by
              rw [take_take, take_eq_take_iff, length_take]
              omega
            rw [htake, hdone, append_assoc, take_append_drop]
          · intro hf hsrc hpid hkey
            rcases mem_append.mp hkey with hkey | hkey
            · exact hp hf hsrc hpid hkey
            · exact hstep hf hsrc hpid hkey
  · intro w _ _
    refine ⟨[], rfl, ?_⟩
    intro _ _ _ hkey
    cases hkey

end Setting

end Tourillon
