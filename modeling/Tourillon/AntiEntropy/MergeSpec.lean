import Tourillon.AntiEntropy.ExchangeSpec

namespace Tourillon

open Endian Exceptional Prog Protocol Sequence List

def KeyOf (pid : Nat) (raw : Bytes) : Prop := ∃ q : Key, q.Encodable ∧ q.pid = pid ∧ raw = q.encode .tags

structure PageFrame where
  pid : Nat
  cursor : Bytes
  boundary : Bytes
  mine : List Bytes
  theirs : List Bytes

structure Sorted (p : PageFrame) (raws : List Bytes) : Prop where
  strict : raws.Pairwise (· < ·)
  mem : ∀ raw, raw ∈ raws ↔ (raw ∈ p.mine ∨ raw ∈ p.theirs) ∧ raw < p.boundary

theorem sorted_page (p : PageFrame) : Sorted p
    (((p.mine ++ p.theirs).filter (· < p.boundary)).eraseDups.insertionSort (· ≤ ·)) where
  strict := by
    have hn : (((p.mine ++ p.theirs).filter (· < p.boundary)).eraseDups.insertionSort (· ≤ ·)).Nodup :=
      (perm_insertionSort (· ≤ ·) _).nodup_iff.mpr (nodup_eraseDups _)
    have hs := pairwise_insertionSort (· ≤ ·)
      ((p.mine ++ p.theirs).filter (· < p.boundary)).eraseDups
    exact (hs.and hn).imp fun h => lt_of_le_of_ne h.1 h.2
  mem raw := by rw [mem_insertionSort, mem_eraseDups, mem_filter, mem_append, decide_eq_true_iff]

namespace Setting

variable [Blake2b] {S : Setting} {A : World → Prop} {p : PageFrame} {d : Direction} {pid : Nat}
  {raws : List Bytes} {w : World} {scope : Scope}

theorem spec_setPosition (hA : S.protocol.Stable A) {pos : Option (Nat × Option Bytes)}
    (h : ∀ w, A w → S.s.Serves S.toFocus → S.s.Timely S.key → S.key.pid = pid →
      ∀ p ∈ pos, Passed p S.key → S.Settled w) : S.protocol.Spec A (S.s.setPosition pid pos) fun _ => A := by
  apply Spec.modify
  intro w hw hpre
  have hmove := Move.progress (S := S) w
    { w.shared.progress S.s.peer S.s.ref with
      positions := fun q => if q = pid then pos else (w.shared.progress S.s.peer S.s.ref).positions q }
    (by
      rcases hw.2 with hhonest | hcol
      · by_cases hc : Collided w
        · exact .inr hc
        · left
          intro hserve htime p hp hpass
          dsimp only at hp
          split at hp
          · rename_i hpid
            exact (h w hpre hserve htime hpid p hp hpass).resolve_right hc
          · exact hhonest hserve htime p hp hpass
      · exact .inr hcol)
  exact ⟨.inr hmove, hA w _ hw hmove hpre⟩

theorem spec_setNextPid (hA : S.protocol.Stable A) (pid : Nat) :
    S.protocol.Spec A (S.s.setNextPid pid) fun _ => A := by
  apply Spec.modify
  intro w hw hpre
  have hmove := Move.progress (S := S) w
    { w.shared.progress S.s.peer S.s.ref with nextPid := pid } hw.2
  exact ⟨.inr hmove, hA w _ hw hmove hpre⟩

def Merged (S : Setting) (pid : Nat) (d : Direction) (raws : List Bytes) (w : World) : Prop :=
  S.s.Faces S.toFocus → S.key.pid = pid → S.key.encode .tags ∈ raws →
    (d = .push ∧ S.src = S.s.self ∨ d = .pull ∧ S.src = S.s.peer) → S.Settled w

theorem stable_merged : S.protocol.Stable (S.Merged pid d raws) := stable_settled.imp.imp.imp.imp

theorem spec_mergeChunk (hs : scope.pids = [pid]) (hpush : d = .push → S.s.view.isReplica pid S.s.peer = true)
    (hpull : d = .pull → S.s.view.isReplica pid S.s.self = true) (hraws : ∀ raw ∈ raws, KeyOf pid raw) :
    S.protocol.Spec (fun _ => True) (S.s.mergeChunk S.c scope pid d raws) fun _ => S.Merged pid d raws := by
  cases d with
  | push =>
    refine Spec.bind spec_python fun keys => ?_
    refine Spec.assume (p := raws.mapM (Key.fromBytes .tags) = .ok keys) (fun _ _ h => h.2)
      fun hdec => ?_
    have hpid (q : Key) (hq : q ∈ keys) : q.pid = pid := by
      obtain ⟨raw, hraw, hqr⟩ := exists_of_mem_mapM_right hdec hq
      obtain ⟨q', henc, hpid, rfl⟩ := hraws raw hraw
      rw [Key.fromBytes_tags_encode henc] at hqr
      exact Except.ok.inj hqr ▸ hpid
    refine (spec_push hs (hpush rfl) hpid).anywhere.post ?_
    intro _ w _ hp hf _ hkey hdir
    refine hp hf ?_ ?_
    · rcases hdir with ⟨_, hd⟩ | ⟨hd, _⟩
      · exact hd
      · cases hd
    · have hm := decoded_mem hdec raws.length (by rwa [take_length])
      exact mem_of_mem_take hm
  | pull =>
    refine (spec_pull hs (hpull rfl) raws).post ?_
    intro _ w _ hp hf hpid hkey hdir
    refine hp hf ?_ hpid hkey
    rcases hdir with ⟨hd, _⟩ | ⟨_, hd⟩
    · cases hd
    · exact hd
  | skip =>
    refine Spec.ret ?_
    intro w _ _ _ _ _ hdir
    rcases hdir with ⟨hd, _⟩ | ⟨hd, _⟩
    · cases hd
    · cases hd

def Window (S : Setting) (p : PageFrame) (w : World) : Prop :=
  S.key.pid = p.pid → p.cursor < S.key.encode .tags → S.key.encode .tags < p.boundary →
    S.Seen S.s.self (S.key.encode .tags ∈ p.mine) w ∧
      S.Seen S.s.peer (S.key.encode .tags ∈ p.theirs) w

def Done (S : Setting) (pid : Nat) (upto : Bytes) (w : World) : Prop :=
  S.s.Serves S.toFocus → S.s.Timely S.key → S.key.pid = pid → S.key.encode .tags ≤ upto →
    S.Settled w

theorem stable_done {upto : Bytes} : S.protocol.Stable (S.Done pid upto) := stable_settled.imp.imp.imp.imp

def Viewed (S : Setting) (p : PageFrame) (w : World) : Prop := S.Window p w ∧ S.Done p.pid p.cursor w

theorem stable_viewed : S.protocol.Stable (S.Viewed p) :=
  ((stable_seen _ _).and (stable_seen _ _)).imp.imp.imp.and stable_done

def Handled (S : Setting) (pid : Nat) (raws : List Bytes) (w : World) : Prop :=
  S.s.Serves S.toFocus → S.s.Timely S.key → S.key.pid = pid → S.key.encode .tags ∈ raws →
    S.Settled w

theorem stable_handled : S.protocol.Stable (S.Handled pid raws) := stable_settled.imp.imp.imp.imp

theorem Window.settled_of_absent (h : S.Window p w) (hf : S.s.Faces S.toFocus) (hpid : S.key.pid = p.pid)
    (hlo : p.cursor < S.key.encode .tags) (hhi : S.key.encode .tags < p.boundary)
    (hm : S.key.encode .tags ∉ p.mine) (ht : S.key.encode .tags ∉ p.theirs) : S.Settled w := by
  obtain ⟨hself, hpeer⟩ := h hpid hlo hhi
  rcases hf with ⟨hsrc, _⟩ | ⟨hsrc, _⟩
  · exact hself.2 hm hsrc.symm
  · exact hpeer.2 ht hsrc.symm

theorem Window.settled_of_direction (h : S.Window p w) (hserve : S.s.Serves S.toFocus)
    (hpid : S.key.pid = p.pid) (hlo : p.cursor < S.key.encode .tags) (hhi : S.key.encode .tags < p.boundary)
    (hd : S.s.direction p.pid p.mine p.theirs (S.key.encode .tags) = d)
    (hno : ¬ (d = .push ∧ S.src = S.s.self ∨ d = .pull ∧ S.src = S.s.peer)) : S.Settled w := by
  obtain ⟨hself, hpeer⟩ := h hpid hlo hhi
  obtain ⟨hf, hrep⟩ := hserve
  rw [hpid] at hrep
  subst hd
  unfold PeerSync.direction at hno
  rcases hf with ⟨hsrc, hdst⟩ | ⟨hsrc, hdst⟩
  · rw [hdst] at hrep
    by_cases ht : S.key.encode .tags ∈ p.theirs
    · exact kept_settled (hpeer.1 ht hdst.symm)
    · exact absurd (.inl ⟨by rw [if_pos ⟨ht, hrep⟩], hsrc⟩) hno
  · rw [hdst] at hrep
    by_cases hm : S.key.encode .tags ∈ p.mine
    · exact kept_settled (hself.1 hm hdst.symm)
    · by_cases ht : S.key.encode .tags ∉ p.theirs ∧ S.s.view.isReplica p.pid S.s.peer
      · exact hpeer.2 ht.1 hsrc.symm
      · exact absurd (.inr ⟨by rw [if_neg ht, if_pos ⟨hm, hrep⟩], hsrc⟩) hno

theorem Viewed.upto {done rest : List Bytes} (ho : Sorted p (done ++ rest)) (hv : S.Viewed p w)
    (hh : S.Handled p.pid done w) {last : Bytes} (hlast : last ∈ done) : S.Done p.pid last w := by
  intro hserve htime hpid hle
  rcases le_or_gt (S.key.encode .tags) p.cursor with hcur | hcur
  · exact hv.2 hserve htime hpid hcur
  · have hbound : S.key.encode .tags < p.boundary :=
      lt_of_le_of_lt hle ((ho.mem last).mp (mem_append_left _ hlast)).2
    by_cases hin : S.key.encode .tags ∈ done ++ rest
    · rcases mem_append.mp hin with hin | hin
      · exact hh hserve htime hpid hin
      · have hlt := (pairwise_append.mp ho.strict).2.2 last hlast _ hin
        exact absurd hle (not_le.mpr hlt)
    · rw [ho.mem, not_and_or, not_or] at hin
      have hno := hin.resolve_right (not_not.mpr hbound)
      exact hv.1.settled_of_absent hserve.1 hpid hcur hbound hno.1 hno.2

theorem Handled.append {done chunk : List Bytes} (hh : S.Handled p.pid done w) (hv : S.Viewed p w)
    (hm : S.Merged p.pid d chunk w)
    (hd : ∀ raw ∈ chunk, S.s.direction p.pid p.mine p.theirs raw = d ∧ raw < p.boundary) :
    S.Handled p.pid (done ++ chunk) w := by
  intro hserve htime hpid hin
  rcases mem_append.mp hin with hin | hin
  · exact hh hserve htime hpid hin
  · rcases le_or_gt (S.key.encode .tags) p.cursor with hcur | hcur
    · exact hv.2 hserve htime hpid hcur
    · by_cases hdir : d = .push ∧ S.src = S.s.self ∨ d = .pull ∧ S.src = S.s.peer
      · exact hm hserve.1 hpid hin hdir
      · exact hv.1.settled_of_direction hserve hpid hcur (hd _ hin).2 (hd _ hin).1 hdir

theorem replica_of_direction {raw : Bytes} (h : S.s.direction p.pid p.mine p.theirs raw = d) :
    (d = .push → S.s.view.isReplica p.pid S.s.peer = true) ∧
      (d = .pull → S.s.view.isReplica p.pid S.s.self = true) := by
  subst h
  unfold PeerSync.direction
  split
  · rename_i hp
    exact ⟨fun _ => hp.2, nofun⟩
  · split
    · rename_i hp
      exact ⟨nofun, fun _ => hp.2⟩
    · exact ⟨nofun, nofun⟩

def Early (S : Setting) (pid bucket : Nat) (cursor : Bytes) : Prop :=
  S.key.pid = pid → S.bucket < bucket → S.key.encode .tags ≤ cursor

theorem spec_mergeRun (hs : scope.pids = [p.pid]) {bucket : Nat} (he : S.Early p.pid bucket p.cursor)
    {before run t : List Bytes} (hraws : ∀ raw ∈ run, KeyOf p.pid raw)
    (hd : ∀ raw ∈ run, S.s.direction p.pid p.mine p.theirs raw = d) (ho : Sorted p (before ++ run ++ t)) :
    S.protocol.Spec (fun w => S.Viewed p w ∧ S.Handled p.pid before w) (S.s.mergeRun S.c scope p.pid bucket d run)
      fun _ w => S.Viewed p w ∧ S.Handled p.pid (before ++ run) w := by
  refine (Spec.iterate (I := fun ks w => ∃ done, run = done ++ ks ∧
    S.Viewed p w ∧ S.Handled p.pid (before ++ done) w) ?_ _ _).pre ?_
  · intro ks
    split
    · rename_i hnil
      apply Spec.ret
      rintro w _ ⟨done, hrun, hv, hh⟩
      rw [hnil, append_nil] at hrun
      exact ⟨hv, hrun ▸ hh⟩
    · rename_i hne
      have hstable : S.protocol.Stable fun w => ∃ done, run = done ++ ks ∧ S.Viewed p w ∧
          S.Handled p.pid (before ++ done) w :=
        Stable.exists fun _ => (Stable.const _).and (stable_viewed.and stable_handled)
      refine Spec.assume (p := ∀ raw ∈ ks, raw ∈ run) ?_ fun hsub => ?_
      · rintro w _ ⟨done, hrun, _⟩ raw hraw
        rw [hrun]
        exact mem_append_right _ hraw
      apply Spec.bind (Spec.whenever (fun _ => spec_spendRepairs) fun _ _ h _ => h)
      intro _
      apply Spec.bind (Spec.get (Q := fun _ w => ∃ done, run = done ++ ks ∧ S.Viewed p w ∧
        S.Handled p.pid (before ++ done) w) fun _ _ h => h)
      intro w₀
      dsimp only
      obtain ⟨chunk, hchunk⟩ : ∃ chunk, chunk = ks.take (min S.s.page
        (max 1 (S.s.limits.maxRepairs - w₀.tally.pushed - w₀.tally.pulled))) := ⟨_, rfl⟩
      rw [← hchunk]
      have hin (raw : Bytes) (h : raw ∈ chunk) : raw ∈ run := by
        rw [hchunk] at h
        exact hsub raw (mem_of_mem_take h)
      have hsplit : ks = chunk ++ ks.drop chunk.length := by
        have htake : ks.take chunk.length = chunk := by
          rw [hchunk, length_take, take_eq_take_iff]
          omega
        have happ := take_append_drop chunk.length ks
        rw [htake] at happ
        exact happ.symm
      obtain ⟨raw₀, hraw₀⟩ := exists_mem_of_ne_nil ks hne
      obtain ⟨hpush, hpull⟩ := replica_of_direction (hd raw₀ (hsub raw₀ hraw₀))
      apply Spec.seq hstable
        (spec_mergeChunk hs hpush hpull fun raw h => hraws raw (hin raw h)).anywhere
      intro _
      have hbelow (raw : Bytes) (h : raw ∈ run) : raw < p.boundary := ((ho.mem raw).mp (by simp [h])).2
      have hnext (w : World) (h : (∃ done, run = done ++ ks ∧ S.Viewed p w ∧
          S.Handled p.pid (before ++ done) w) ∧ S.Merged p.pid d chunk w) :
          ∃ done, run = done ++ ks.drop chunk.length ∧ S.Viewed p w ∧
            S.Handled p.pid (before ++ done) w ∧ ∀ raw ∈ chunk, raw ∈ done := by
        obtain ⟨⟨done, hrun, hv, hh⟩, hm⟩ := h
        refine ⟨done ++ chunk, ?_, hv, ?_, fun raw hraw => mem_append_right _ hraw⟩
        · rw [append_assoc, ← hsplit]
          exact hrun
        · rw [← append_assoc]
          exact hh.append hv hm fun raw hraw => ⟨hd raw (hin raw hraw), hbelow raw (hin raw hraw)⟩
      apply Spec.bind (spec_setPosition (hstable.and stable_merged) ?_)
      · intro _
        apply Spec.ret
        intro w _ h
        obtain ⟨done, hrun, hv, hh, _⟩ := hnext w h
        exact ⟨done, hrun, hv, hh⟩
      · intro w h hserve htime hpid pos hpos hpass
        cases hpos
        obtain ⟨done, hrun, hv, hh, hdone⟩ := hnext w h
        rcases hpass with hearly | ⟨last, hlast, hle⟩
        · exact hv.2 hserve htime hpid (he hpid hearly)
        · have ho' : Sorted p ((before ++ done) ++ (ks.drop chunk.length ++ t)) := by
            rw [hrun] at ho
            simpa [append_assoc] using ho
          have hmem : last ∈ before ++ done := mem_append_right _ (hdone last (mem_of_getLast? hlast))
          exact hv.upto ho' hh hmem hserve htime hpid hle
  · intro w _ h
    exact ⟨[], rfl, h.1, by simpa using h.2⟩

theorem spec_mergePage (hs : scope.pids = [p.pid]) {bucket : Nat} (he : S.Early p.pid bucket p.cursor)
    (hraws : ∀ raw ∈ p.mine ++ p.theirs, KeyOf p.pid raw) : S.protocol.Spec (S.Viewed p)
      (S.s.mergePage S.c scope p.pid bucket p.boundary p.mine p.theirs)
      fun _ w => ∀ b, b < p.boundary → S.Done p.pid b w := by
  have ho := sorted_page p
  obtain ⟨ordered, hord⟩ : ∃ ordered, ordered =
    ((p.mine ++ p.theirs).filter (· < p.boundary)).eraseDups.insertionSort (· ≤ ·) := ⟨_, rfl⟩
  have hflat := groupRuns_flatten (S.s.direction p.pid p.mine p.theirs) ordered
  have hkey := groupRuns_key (S.s.direction p.pid p.mine p.theirs) ordered
  unfold PeerSync.mergePage
  rw [← hord] at ho ⊢
  refine ((Spec.each (fun done w => S.Viewed p w ∧ S.Handled p.pid (done.flatMap Prod.snd) w) ?_).pre ?_).post ?_
  · intro done run rest hruns
    have hsplit : ordered = done.flatMap Prod.snd ++ run.2 ++ rest.flatMap Prod.snd := by
      rw [← hflat, hruns]
      simp
    rw [flatMap_append, flatMap_singleton]
    refine spec_mergeRun (t := rest.flatMap Prod.snd) hs he ?_ (hkey run (by rw [hruns]; simp)) ?_
    · intro raw hraw
      have hm : raw ∈ ordered := by
        rw [hsplit]
        simp [hraw]
      exact hraws raw (mem_append.mpr ((ho.mem raw).mp hm).1)
    · rw [← hsplit]
      exact ho
  · intro w _ hv
    refine ⟨hv, ?_⟩
    intro _ _ _ hin
    cases hin
  · rintro _ w _ ⟨hv, hh⟩ b hb hserve htime hpid hle
    rw [hflat] at hh
    rcases le_or_gt (S.key.encode .tags) p.cursor with hcur | hcur
    · exact hv.2 hserve htime hpid hcur
    · have hbound := lt_of_le_of_lt hle hb
      by_cases hin : S.key.encode .tags ∈ ordered
      · exact hh hserve htime hpid hin
      · rw [ho.mem, not_and_or, not_or] at hin
        have hno := hin.resolve_right (not_not.mpr hbound)
        exact hv.1.settled_of_absent hserve.1 hpid hcur hbound hno.1 hno.2

end Setting

end Tourillon
