import Tourillon.Store.Machine

namespace Tourillon

open List

namespace StoreService

variable {s t : StoreService} {n d : Nat} {progress : Progress} {m : Nat} {pending : List Nat} {role : Role}

def Unfinished (s : StoreService) (n : Nat) : Prop :=
  (∃ operation, s.role n = .mutation operation) ∧ s.progress n ≠ .ended

def Unsent (s : StoreService) (n : Nat) : Prop :=
  (∃ parent, s.role n = .fanout parent) ∧ s.progress n ≠ .ended

def Held (s : StoreService) : Progress → Prop
  | .settling mutations => ∀ n, s.Unfinished n → n ∈ mutations
  | .flushing writes => (∀ n, ¬ s.Unfinished n) ∧ ∀ n, s.Unsent n → n ∈ writes
  | .returned => (∀ n, ¬ s.Unfinished n) ∧ ∀ n, ¬ s.Unsent n
  | _ => True

structure Tracking (s : StoreService) : Prop where
  fresh : ∀ n, s.next ≤ n → s.progress n = .absent
  mutations : ∀ n, s.Unfinished n → n ∈ s.mutations
  writes : ∀ n parent, s.role n = .fanout parent → s.progress n ≠ .ended →
    n ∈ s.pendingWrites ∨ ∃ pending, s.progress parent = .fanning pending ∧ n ∈ pending
  fanning : ∀ n pending, s.progress n = .fanning pending → ∃ operation, s.role n = .mutation operation
  closed : ∀ d, (s.progress d).draining = true → s.reopened ≤ d → s.gate.acceptingOperations = false
  held : ∀ d, s.reopened ≤ d → s.Held (s.progress d)

theorem held_of_calm (h : progress.draining = false) : s.Held progress := by
  cases progress with
  | settling mutations => cases h
  | flushing writes => cases h
  | returned => cases h
  | _ => trivial

theorem Held.mono (h : s.Held progress) (hmutations : ∀ n, t.Unfinished n → s.Unfinished n)
    (hwrites : ∀ n, t.Unsent n → s.Unsent n ∨ ∃ m, s.Unfinished m) : t.Held progress := by
  cases progress with
  | settling mutations => exact fun n hn => h n (hmutations n hn)
  | flushing writes =>
    refine ⟨fun n hn => h.1 n (hmutations n hn), ?_⟩
    intro n hn
    rcases hwrites n hn with hold | ⟨m, hm⟩
    · exact h.2 n hold
    · exact absurd hm (h.1 m)
  | returned =>
    refine ⟨fun n hn => h.1 n (hmutations n hn), ?_⟩
    intro n hn
    rcases hwrites n hn with hold | ⟨m, hm⟩
    · exact h.2 n hold
    · exact h.1 m hm
  | _ => trivial

theorem Tracking.lt_next (h : s.Tracking) (hn : s.progress n ≠ .absent) : n < s.next :=
  Nat.lt_of_not_le fun hle => hn (h.fresh n hle)

structure Moves (n : Nat) (s t : StoreService) : Prop where
  next : t.next = s.next
  role : t.role = s.role
  reopened : t.reopened = s.reopened
  gate : t.gate = s.gate
  others : ∀ m, m ≠ n → t.progress m = s.progress m
  live : (s.progress n).live = true
  calm : (t.progress n).draining = false
  mutations : ∀ m ∈ s.mutations, m ≠ n ∨ t.progress n ≠ .ended → m ∈ t.mutations
  pendingWrites : ∀ m ∈ s.pendingWrites, m ∈ t.pendingWrites
  tasks : ∀ pending, s.progress n = .fanning pending → ∀ m ∈ pending, s.progress m ≠ .ended →
    m ∈ t.pendingWrites ∨ ∃ pending', t.progress n = .fanning pending' ∧ m ∈ pending'
  fanning : ∀ pending, t.progress n = .fanning pending → ∃ operation, s.role n = .mutation operation

theorem Moves.not_over (h : Moves n s t) (hm : t.progress m ≠ .ended) : s.progress m ≠ .ended := by
  rcases eq_or_ne m n with rfl | hne
  · intro hover
    have hlive := h.live
    rw [hover] at hlive
    cases hlive
  · rw [← h.others m hne]
    exact hm

theorem Moves.unfinished (h : Moves n s t) (hm : t.Unfinished m) : s.Unfinished m :=
  ⟨h.role ▸ hm.1, h.not_over hm.2⟩

theorem Moves.unsent (h : Moves n s t) (hm : t.Unsent m) : s.Unsent m := ⟨h.role ▸ hm.1, h.not_over hm.2⟩

theorem Tracking.moves (h : s.Tracking) (hm : Moves n s t) : t.Tracking where
  fresh := by
    intro m hle
    have hlt : n < s.next := h.lt_next fun habsent => by
      have hlive := hm.live
      rw [habsent] at hlive
      cases hlive
    rw [hm.next] at hle
    rw [hm.others m (by omega)]
    exact h.fresh m hle
  mutations := by
    intro m hu
    apply hm.mutations m (h.mutations m (hm.unfinished hu))
    rcases eq_or_ne m n with rfl | hne
    · exact .inr hu.2
    · exact .inl hne
  writes := by
    intro m parent hrole hlive
    rw [hm.role] at hrole
    rcases h.writes m parent hrole (hm.not_over hlive) with hpending | ⟨pending, hp, hmem⟩
    · exact .inl (hm.pendingWrites m hpending)
    · rcases eq_or_ne parent n with rfl | hne
      · exact hm.tasks pending hp m hmem (hm.not_over hlive)
      · exact .inr ⟨pending, (hm.others parent hne).trans hp, hmem⟩
  fanning := by
    intro m pending hp
    rw [hm.role]
    rcases eq_or_ne m n with rfl | hne
    · exact hm.fanning pending hp
    · exact h.fanning m pending ((hm.others m hne).symm.trans hp)
  closed := by
    intro d hd hle
    rw [hm.gate]
    rw [hm.reopened] at hle
    rcases eq_or_ne d n with rfl | hne
    · rw [hm.calm] at hd
      cases hd
    · exact h.closed d (hm.others d hne ▸ hd) hle
  held := by
    intro d hle
    rw [hm.reopened] at hle
    rcases eq_or_ne d n with rfl | hne
    · exact held_of_calm hm.calm
    · rw [hm.others d hne]
      exact (h.held d hle).mono (fun m => hm.unfinished) fun m hu => .inl (hm.unsent hu)

theorem moves_close (hlive : (s.progress n).live = true)
    (hidle : ∀ pending, s.progress n ≠ .fanning pending) : Moves n s (s.close n) where
  next := rfl
  role := rfl
  reopened := rfl
  gate := rfl
  others m hne := Function.update_of_ne hne _ _
  live := hlive
  calm := by simp [close, setProgress, Progress.draining]
  mutations m hm hcase := by
    simp only [close, setProgress, Function.update_self, ne_eq, not_true_eq_false, or_false] at hcase
    exact mem_filter.mpr ⟨hm, by simpa using hcase⟩
  pendingWrites m hm := hm
  tasks pending hp := absurd hp (hidle pending)
  fanning pending hp := by simp [close, setProgress] at hp

theorem moves_leave (hp : s.progress n = .fanning pending) : Moves n s (s.leave n pending) where
  next := rfl
  role := rfl
  reopened := rfl
  gate := rfl
  others m hne := Function.update_of_ne hne _ _
  live := by rw [hp]; rfl
  calm := by simp [leave, close, setProgress, Progress.draining]
  mutations m hm hcase := by
    simp only [leave, close, setProgress, Function.update_self, ne_eq, not_true_eq_false, or_false] at hcase
    exact mem_filter.mpr ⟨hm, by simpa using hcase⟩
  pendingWrites m hm := mem_append_right _ hm
  tasks pending' hp' m hm _ := by
    cases hp.symm.trans hp'
    exact .inl (mem_append_left _ hm)
  fanning pending' hp' := by simp [leave, close, setProgress] at hp'

theorem moves_setProgress (hlive : (s.progress n).live = true)
    (hlive' : progress.live = true ∨ (s.progress n).draining = true) (hcalm : progress.draining = false)
    (htasks : ∀ pending, s.progress n = .fanning pending → ∃ pending', progress = .fanning pending' ∧
      ∀ m ∈ pending, s.progress m ≠ .ended → m ∈ pending')
    (hfanning : ∀ pending, progress = .fanning pending → ∃ operation, s.role n = .mutation operation) :
    Moves n s (s.setProgress n progress) where
  next := rfl
  role := rfl
  reopened := rfl
  gate := rfl
  others m hne := Function.update_of_ne hne _ _
  live := hlive
  calm := by simpa [setProgress] using hcalm
  mutations m hm _ := hm
  pendingWrites m hm := hm
  tasks pending hp m hm hover := by
    obtain ⟨pending', rfl, hkept⟩ := htasks pending hp
    exact .inr ⟨pending', Function.update_self .., hkept m hm hover⟩
  fanning pending hp := by
    simp only [setProgress, Function.update_self] at hp
    exact hfanning pending hp

structure Enlisted (role : Role) (work : Progress) (s t : StoreService) : Prop where
  next : t.next = s.next + 1
  role : ∀ m, t.role m = if m = s.next then role else s.role m
  progress : ∀ m, t.progress m = if m = s.next then work else s.progress m
  reopened : t.reopened = s.reopened
  gate : s.gate.acceptingOperations = false → t.gate.acceptingOperations = false
  mutations : ∀ m ∈ s.mutations, m ∈ t.mutations
  pendingWrites : ∀ m ∈ s.pendingWrites, m ∈ t.pendingWrites

theorem Tracking.enlisted (h : s.Tracking) (role : Role) (work : Progress) :
    Enlisted role work s (s.enlist role [work]) where
  next := rfl
  role m := by
    simp only [enlist, length_singleton]
    exact if_congr (by omega) rfl rfl
  progress m := by
    dsimp only [enlist]
    rcases Nat.lt_trichotomy m s.next with hlt | rfl | hgt
    · rw [if_neg (by omega), if_neg (by omega)]
    · rw [if_pos (Nat.le_refl _), if_pos rfl, Nat.sub_self]
      rfl
    · rw [if_pos (by omega), if_neg (by omega), h.fresh m (by omega)]
      obtain ⟨k, hk⟩ : ∃ k, m - s.next = k + 1 := ⟨m - s.next - 1, by omega⟩
      rw [hk]
      rfl
  reopened := rfl
  gate := id
  mutations _ hm := hm
  pendingWrites _ hm := hm

theorem Tracking.enlists {work : Progress} (h : s.Tracking) (he : Enlisted role work s t)
    (hfanout : ∀ parent, role ≠ .fanout parent) (hwork : ∀ pending, work ≠ .fanning pending)
    (hmutation : ∀ operation, role = .mutation operation → s.next ∈ t.mutations ∧ s.gate.acceptingOperations = true)
    (hdrain : work.draining = true → t.gate.acceptingOperations = false ∧ t.Held work) :
    t.Tracking := by
  have hold {m : Nat} (hm : m ≠ s.next) : t.role m = s.role m ∧ t.progress m = s.progress m :=
    ⟨(he.role m).trans (if_neg hm), (he.progress m).trans (if_neg hm)⟩
  have hself : t.role s.next = role ∧ t.progress s.next = work :=
    ⟨(he.role _).trans (if_pos rfl), (he.progress _).trans (if_pos rfl)⟩
  have hunfinished {m : Nat} (hu : t.Unfinished m) : m = s.next ∨ s.Unfinished m := by
    by_cases hm : m = s.next
    · exact .inl hm
    · exact .inr ⟨(hold hm).1 ▸ hu.1, (hold hm).2 ▸ hu.2⟩
  have hunsent {m : Nat} (hu : t.Unsent m) : s.Unsent m := by
    by_cases hm : m = s.next
    · obtain ⟨parent, hp⟩ := hu.1
      rw [hm, hself.1] at hp
      exact absurd hp (hfanout parent)
    · exact ⟨(hold hm).1 ▸ hu.1, (hold hm).2 ▸ hu.2⟩
  refine ⟨?_, ?_, ?_, ?_, ?_, ?_⟩
  · intro m hm
    rw [he.next] at hm
    rw [(hold (by omega)).2]
    exact h.fresh m (by omega)
  · intro m hu
    rcases hunfinished hu with rfl | hs
    · obtain ⟨operation, hop⟩ := hu.1
      exact (hmutation operation (hself.1.symm.trans hop)).1
    · exact he.mutations m (h.mutations m hs)
  · intro m parent hrole hlive
    have hm : m ≠ s.next := by
      rintro rfl
      exact hfanout parent (hself.1.symm.trans hrole)
    rw [(hold hm).1] at hrole
    rw [(hold hm).2] at hlive
    rcases h.writes m parent hrole hlive with hp | ⟨pending, hp, hmem⟩
    · exact .inl (he.pendingWrites m hp)
    · refine .inr ⟨pending, ?_, hmem⟩
      have hlt := h.lt_next (by rw [hp]; nofun)
      rw [(hold (Nat.ne_of_lt hlt)).2, hp]
  · intro m pending hp
    have hm : m ≠ s.next := by
      rintro rfl
      exact hwork pending (hself.2.symm.trans hp)
    rw [(hold hm).1]
    exact h.fanning m pending ((hold hm).2.symm.trans hp)
  · intro d hd hle
    by_cases hdn : d = s.next
    · rw [hdn, hself.2] at hd
      exact (hdrain hd).1
    · rw [(hold hdn).2] at hd
      rw [he.reopened] at hle
      exact he.gate (h.closed d hd hle)
  · intro d hle
    by_cases hdn : d = s.next
    · rw [hdn, hself.2]
      cases hw : work.draining with
      | true => exact (hdrain hw).2
      | false => exact held_of_calm hw
    · rw [(hold hdn).2]
      rw [he.reopened] at hle
      cases hd : (s.progress d).draining with
      | false => exact held_of_calm hd
      | true =>
        refine (h.held d hle).mono ?_ fun m hu => .inl (hunsent hu)
        intro m hu
        rcases hunfinished hu with rfl | hs
        · obtain ⟨operation, hop⟩ := hu.1
          have hopen := (hmutation operation (hself.1.symm.trans hop)).2
          rw [h.closed d hd hle] at hopen
          cases hopen
        · exact hs

theorem progress_posting {targets : List WriteTarget} (hm : s.next ≤ m) :
    s.next + targets.length ≤ m ∧ (s.enlist role (targets.map .posting)).progress m = .absent ∨
      m < s.next + targets.length ∧
        ∃ target, (s.enlist role (targets.map .posting)).progress m = .posting target := by
  dsimp only [enlist]
  rw [if_pos hm, List.getD_eq_getElem?_getD, List.getElem?_map]
  rcases hget : targets[m - s.next]? with _ | target
  · have hge := List.getElem?_eq_none_iff.mp hget
    exact .inl ⟨by omega, rfl⟩
  · have hlt := (List.getElem?_eq_some_iff.mp hget).1
    exact .inr ⟨by omega, target, rfl⟩

structure Fanned (n : Nat) (pending : List Nat) (s t : StoreService) : Prop where
  next : s.next ≤ t.next
  gate : t.gate = s.gate
  reopened : t.reopened = s.reopened
  mutations : t.mutations = s.mutations
  pendingWrites : t.pendingWrites = s.pendingWrites
  self : t.progress n = .fanning pending
  role : ∀ m < s.next, t.role m = s.role m
  progress : ∀ m < s.next, m ≠ n → t.progress m = s.progress m
  born : ∀ m, s.next ≤ m → t.progress m = .absent ∧ t.role m = s.role m ∨
    m < t.next ∧ t.role m = .fanout n ∧ m ∈ pending ∧ ∃ target, t.progress m = .posting target

theorem fanned (hlt : n < s.next) (targets : List WriteTarget) : Fanned n (range' s.next targets.length) s
      ((s.enlist (.fanout n) (targets.map .posting)).setProgress n (.fanning (range' s.next targets.length))) where
  next := Nat.le_add_right ..
  gate := rfl
  reopened := rfl
  mutations := rfl
  pendingWrites := rfl
  self := Function.update_self ..
  role _ hm := role_enlist_of_lt hm _ _
  progress _ hm hne := (Function.update_of_ne hne _ _).trans (progress_enlist_of_lt hm _ _)
  born m hm := by
    have hsame : ((s.enlist (.fanout n) (targets.map .posting)).setProgress n
        (.fanning (range' s.next targets.length))).progress m =
        (s.enlist (.fanout n) (targets.map .posting)).progress m :=
      Function.update_of_ne (by omega) _ _
    have hlength : (targets.map Progress.posting).length = targets.length := length_map ..
    rw [hsame]
    rcases progress_posting hm with ⟨hbound, habsent⟩ | ⟨hbound, hposting⟩
    · rw [← hlength] at hbound
      exact .inl ⟨habsent, if_neg fun hc => absurd hc.2 (Nat.not_lt.mpr hbound)⟩
    · rw [← hlength] at hbound
      exact .inr ⟨hbound, if_pos ⟨hm, hbound⟩, mem_range'_1.mpr ⟨hm, hlength ▸ hbound⟩, hposting⟩

namespace Fanned

variable {pending : List Nat}

theorem unfinished (hf : Fanned n pending s t) (h : s.Tracking) (hn : s.Unfinished n) {m : Nat}
    (hu : t.Unfinished m) : s.Unfinished m := by
  rcases Nat.lt_or_ge m s.next with hm | hm
  · rcases eq_or_ne m n with rfl | hne
    · exact hn
    · exact ⟨hf.role m hm ▸ hu.1, hf.progress m hm hne ▸ hu.2⟩
  · rcases hf.born m hm with ⟨_, hrole⟩ | ⟨_, hfanout, _⟩
    · exact ⟨hrole ▸ hu.1, by rw [h.fresh m hm]; nofun⟩
    · obtain ⟨⟨_, hmutation⟩, _⟩ := hu
      cases hmutation.symm.trans hfanout

theorem drained (hf : Fanned n pending s t) (hd : (t.progress d).draining = true) :
    t.progress d = s.progress d := by
  rcases Nat.lt_or_ge d s.next with hlt | hge
  · apply hf.progress d hlt
    rintro rfl
    rw [hf.self] at hd
    cases hd
  · rcases hf.born d hge with ⟨habsent, _⟩ | ⟨_, _, _, _, hposting⟩
    · rw [habsent] at hd
      cases hd
    · rw [hposting] at hd
      cases hd

end Fanned

theorem Tracking.fans (h : s.Tracking) (hn : s.Unfinished n) (hp : s.progress n = .placing)
    (hf : Fanned n pending s t) : t.Tracking where
  fresh := by
    intro m hm
    have hnext := hf.next
    rcases hf.born m (by omega) with ⟨habsent, _⟩ | ⟨hlt, _⟩
    · exact habsent
    · omega
  mutations := by
    intro m hu
    rw [hf.mutations]
    exact h.mutations m (hf.unfinished h hn hu)
  writes := by
    intro m parent hfanout hover
    have hold (hrole : s.role m = .fanout parent) (hover : s.progress m ≠ .ended) :
        m ∈ t.pendingWrites ∨ ∃ pending, t.progress parent = .fanning pending ∧ m ∈ pending := by
      rcases h.writes m parent hrole hover with hpending | ⟨older, hparent, hmem⟩
      · exact .inl (hf.pendingWrites.symm ▸ hpending)
      · refine .inr ⟨older, ?_, hmem⟩
        have hne : parent ≠ n := by
          rintro rfl
          cases hp.symm.trans hparent
        rw [hf.progress parent (h.lt_next (by rw [hparent]; nofun)) hne, hparent]
    rcases Nat.lt_or_ge m s.next with hm | hm
    · rw [hf.role m hm] at hfanout
      have hne : m ≠ n := by
        rintro rfl
        obtain ⟨⟨_, hmutation⟩, _⟩ := hn
        cases hmutation.symm.trans hfanout
      exact hold hfanout (hf.progress m hm hne ▸ hover)
    · rcases hf.born m hm with ⟨_, hrole⟩ | ⟨_, hborn, hrange, _⟩
      · exact hold (hrole ▸ hfanout) (by rw [h.fresh m hm]; nofun)
      · cases hborn.symm.trans hfanout
        exact .inr ⟨pending, hf.self, hrange⟩
  fanning := by
    intro m older hm
    rcases Nat.lt_or_ge m s.next with hlt | hge
    · rw [hf.role m hlt]
      rcases eq_or_ne m n with rfl | hne
      · exact hn.1
      · exact h.fanning m older ((hf.progress m hlt hne).symm.trans hm)
    · rcases hf.born m hge with ⟨habsent, _⟩ | ⟨_, _, _, _, hposting⟩
      · cases habsent.symm.trans hm
      · cases hposting.symm.trans hm
  closed := by
    intro d hd hle
    rw [hf.gate]
    rw [hf.reopened] at hle
    exact h.closed d (hf.drained hd ▸ hd) hle
  held := by
    intro d hle
    rw [hf.reopened] at hle
    cases hd : (t.progress d).draining with
    | false => exact held_of_calm hd
    | true =>
      rw [hf.drained hd]
      exact (h.held d hle).mono (fun m => hf.unfinished h hn) fun m _ => .inr ⟨n, hn⟩

end StoreService

end Tourillon
