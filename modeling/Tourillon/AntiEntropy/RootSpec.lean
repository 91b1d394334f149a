import Tourillon.AntiEntropy.PidSpec

namespace Tourillon

open Endian Exceptional Prog Protocol Sequence PeerSync

theorem mem_rotate {nextPid : Nat} {pids : List Nat} {pid : Nat} : pid ∈ rotate nextPid pids ↔ pid ∈ pids :=
  List.mem_insertionSort _

theorem rootCells_zip {mine : List (Nat × DigestCell)} {pids : List Nat} {cells : List Bytes}
    (h : rootCells mine pids = .ok cells) {pid : Nat} (hp : pid ∈ pids) :
    ∃ cell : DigestCell, mine.lookup pid = some cell ∧ cell.Encodable ∧ (pid, cell.encode) ∈ pids.zip cells := by
  obtain ⟨hlen, hzip⟩ := List.forall₂_iff_zip.mp (mapM_eq_ok.mp h)
  obtain ⟨raw, hraw⟩ := (exists_mem_zip hlen.symm).1 pid hp
  have hcell := hzip hraw
  split at hcell
  · cases hcell
  · rename_i cell hl
    obtain ⟨henc, rfl⟩ := DigestCell.toBytes_eq_ok.mp hcell
    exact ⟨cell, hl, henc, hraw⟩

def differingPids (mine : List (Nat × DigestCell)) (diffs : List (Nat × Bytes)) : List Nat :=
  ((diffs.map Prod.fst).filter fun pid => (mine.lookup pid).isSome).eraseDups

namespace Setting

variable [Blake2b] {S : Setting}

theorem compared_of_equal {pids : List Nat} {mine : List (Nat × DigestCell)} {cells : List Bytes}
    {diffs : List (Nat × Bytes)} {w : World} (hcells : rootCells mine pids = .ok cells)
    (hmine : S.RootsSeen S.s.self pids mine w) (hdiffs : S.RootsAnswered pids cells diffs w)
    {pid : Nat} (hp : pid ∈ pids) (hnot : pid ∉ differingPids mine diffs) : S.Compared pid w := by
  rintro hf rfl
  obtain ⟨cell, hl, henc, hzip⟩ := rootCells_zip hcells hp
  have hsettled : S.Settled w := by
    rcases hdiffs _ hzip with hmem | ⟨cell', ⟨henc', heq⟩, hpeer⟩
    · refine absurd (List.mem_eraseDups.mpr (List.mem_filter.mpr ⟨hmem, ?_⟩)) hnot
      rw [hl]
      rfl
    · obtain rfl := DigestCell.encode_inj henc henc' heq
      exact (hmine.2 _ (mem_of_lookup_eq_some hl) rfl).settled hf hpeer
  exact ⟨fun _ _ => hsettled, fun _ _ _ => .inr hsettled⟩

theorem spec_visitPid (pid : Nat) : S.protocol.Spec (fun _ => True) (do
        S.s.setNextPid pid
        S.s.syncPid S.c pid
        S.s.setPosition pid none
        S.s.setNextPid (pid + 1) : Ae Unit)
      fun _ => S.Compared pid := by
  apply Spec.bind (spec_setNextPid stable_true pid)
  intro _
  apply Spec.bind (spec_syncPid pid)
  intro _
  apply Spec.bind (spec_setPosition stable_compared ?_)
  · intro _
    exact spec_setNextPid stable_compared (pid + 1)
  · intro w _ _ _ _ p hp
    cases hp

theorem spec_syncRootPage (pids : List Nat) : S.protocol.Spec (fun _ => True) (S.s.syncRootPage S.c pids)
      fun _ w => ∀ pid, pid ∈ pids → S.Compared pid w := by
  apply Spec.bind (spec_roots self_end pids)
  intro mine
  apply Spec.bind spec_python
  intro scope
  apply Spec.bind spec_python
  intro cells
  have hstable : S.protocol.Stable fun w => (S.RootsSeen S.s.self pids mine w ∧
      S.s.scope S.c pids = .ok scope) ∧ rootCells mine pids = .ok cells :=
    (stable_rootsSeen.and (Stable.const _)).and (Stable.const _)
  apply Spec.seq hstable (spec_rpc hstable (fun _ => stable_rootsAnswered) (spec_handleRoots scope cells).anywhere)
  intro diffs
  have hroots : S.protocol.Stable (S.RootsAnswered scope.pids cells diffs) := stable_rootsAnswered
  have hanswered := hstable.and hroots
  apply Spec.bind (spec_tallied hanswered _)
  intro _
  apply Spec.bind (Spec.get (Q := fun _ w => _) fun _ _ h => h)
  intro w₀
  refine (Spec.each_of_stable hanswered (fun _ => stable_compared)
    fun pid _ => (spec_visitPid pid).anywhere).post ?_
  rintro _ w _ ⟨⟨⟨⟨hmine, hscope⟩, hcells⟩, hdiffs⟩, hdone⟩ pid hp
  rw [scope_pids hscope] at hdiffs
  by_cases hd : pid ∈ differingPids mine diffs
  · exact hdone pid (mem_rotate.mpr hd)
  · exact compared_of_equal hcells hmine hdiffs hp hd

theorem spec_syncRoots (pids : List Nat) : S.protocol.Spec (fun _ => True) (S.s.syncRoots S.c pids)
      fun _ w => ∀ pid, pid ∈ pids → S.Compared pid w := by
  apply Spec.bind (Spec.get (Q := fun _ _ => True) fun _ _ h => h)
  intro w₀
  refine (Spec.each_of_stable (K := fun page w => ∀ pid, pid ∈ page → S.Compared pid w) stable_true
    (fun _ => Stable.forall fun _ => stable_compared.imp) fun page _ => spec_syncRootPage page).post ?_
  rintro _ w _ ⟨_, hpages⟩ pid hp
  have hmem : pid ∈ (chunks maxPidsPerRequest
      (rotate (w₀.shared.progress S.s.peer S.s.ref).nextPid pids)).flatten := by
    rw [chunks_flatten (by decide)]
    exact mem_rotate.mpr hp
  obtain ⟨page, hpage, hin⟩ := List.mem_flatten.mp hmem
  exact hpages page hpage pid hin

end Setting

end Tourillon
