import Tourillon.Store.Tracking

namespace Tourillon

namespace StoreService

variable {s t : StoreService} {n d : Nat}

structure Alike (s t : StoreService) : Prop where
  next : t.next = s.next
  role : t.role = s.role
  progress : t.progress = s.progress
  mutations : t.mutations = s.mutations
  reopened : t.reopened = s.reopened
  gate : s.gate.acceptingOperations = false → t.gate.acceptingOperations = false
  pendingWrites : ∀ m ∈ s.pendingWrites, s.progress m ≠ .ended → m ∈ t.pendingWrites

theorem Alike.unfinished (h : Alike s t) : t.Unfinished n ↔ s.Unfinished n := by
  rw [Unfinished, Unfinished, h.role, h.progress]

theorem Alike.unsent (h : Alike s t) : t.Unsent n ↔ s.Unsent n := by rw [Unsent, Unsent, h.role, h.progress]

theorem Tracking.alike (h : s.Tracking) (ha : Alike s t) : t.Tracking where
  fresh := by
    rw [ha.next, ha.progress]
    exact h.fresh
  mutations m hu := ha.mutations.symm ▸ h.mutations m (ha.unfinished.mp hu)
  writes := by
    intro m parent hrole hover
    rw [ha.role] at hrole
    rw [ha.progress] at hover ⊢
    exact (h.writes m parent hrole hover).imp (fun hm => ha.pendingWrites m hm hover) id
  fanning := by
    rw [ha.role, ha.progress]
    exact h.fanning
  closed := by
    intro d hd hle
    rw [ha.progress] at hd
    rw [ha.reopened] at hle
    exact ha.gate (h.closed d hd hle)
  held := by
    intro d hle
    rw [ha.reopened] at hle
    rw [ha.progress]
    exact (h.held d hle).mono (fun m => ha.unfinished.mp) fun m hu => .inl (ha.unsent.mp hu)

theorem alike_setPool (s : StoreService) (group : Nat) (pool : AsyncThreadPool) :
    Alike s (s.setPool group pool) := ⟨rfl, rfl, rfl, rfl, rfl, id, fun _ hm _ => hm⟩

theorem alike_pause (s : StoreService) (readable : Bool) : Alike s { s with gate := s.gate.pause readable } :=
  ⟨rfl, rfl, rfl, rfl, rfl, fun _ => rfl, fun _ hm _ => hm⟩

theorem Tracking.resume (h : s.Tracking) : Tracking { s with gate := s.gate.resume, reopened := s.next } where
  fresh := h.fresh
  mutations := h.mutations
  writes := h.writes
  fanning := h.fanning
  closed := by
    intro d hd hle
    rw [show s.progress d = .absent from h.fresh d hle] at hd
    cases hd
  held := by
    intro d hle
    rw [show s.progress d = .absent from h.fresh d hle]
    trivial

theorem Tracking.drains (h : s.Tracking) {progress : Progress} (hd : (s.progress d).draining = true)
    (hdraining : progress.draining = true)
    (hheld : s.reopened ≤ d → s.Held progress) : (s.setProgress d progress).Tracking := by
  have hothers {m : Nat} (hm : m ≠ d) : (s.setProgress d progress).progress m = s.progress m :=
    Function.update_of_ne hm _ _
  have hself : (s.setProgress d progress).progress d = progress := Function.update_self ..
  have hback {m : Nat} (hm : (s.setProgress d progress).progress m ≠ .ended) :
      s.progress m ≠ .ended := by
    rcases eq_or_ne m d with rfl | hne
    · intro hover
      rw [hover] at hd
      cases hd
    · exact hothers hne ▸ hm
  have hunfinished (m : Nat) (hu : (s.setProgress d progress).Unfinished m) : s.Unfinished m :=
    ⟨hu.1, hback hu.2⟩
  have hunsent (m : Nat) (hu : (s.setProgress d progress).Unsent m) :
      s.Unsent m ∨ ∃ m, s.Unfinished m := .inl ⟨hu.1, hback hu.2⟩
  refine ⟨?_, ?_, ?_, ?_, ?_, ?_⟩
  · intro m hm
    have hlt := h.lt_next (n := d) (by intro habsent; rw [habsent] at hd; cases hd)
    rw [hothers (Nat.ne_of_gt (Nat.lt_of_lt_of_le hlt hm))]
    exact h.fresh m hm
  · exact fun m hu => h.mutations m (hunfinished m hu)
  · intro m parent hrole hm
    refine (h.writes m parent hrole (hback hm)).imp id ?_
    rintro ⟨pending, hp, hmem⟩
    refine ⟨pending, ?_, hmem⟩
    rw [hothers, hp]
    rintro rfl
    rw [hp] at hd
    cases hd
  · intro m pending hp
    apply h.fanning m pending
    rw [← hothers (m := m), hp]
    rintro rfl
    rw [hself.symm.trans hp] at hdraining
    cases hdraining
  · intro d' hd' hle
    rcases eq_or_ne d' d with rfl | hne
    · exact h.closed d' hd hle
    · exact h.closed d' (hothers hne ▸ hd') hle
  · intro d' hle
    rcases eq_or_ne d' d with rfl | hne
    · rw [hself]
      exact (hheld hle).mono hunfinished hunsent
    · rw [hothers hne]
      exact (h.held d' hle).mono hunfinished hunsent

inductive Evolves : StoreService → StoreService → Prop where
  | alike {s t : StoreService} (h : Alike s t) : Evolves s t
  | moves {s t : StoreService} {n : Nat} (h : Moves n s t) : Evolves s t
  | enlists {s t : StoreService} {role : Role} {work : Progress} (h : Enlisted role work s t)
      (fanout : ∀ parent, role ≠ .fanout parent) (idle : ∀ pending, work ≠ .fanning pending)
      (mutation : ∀ operation, role = .mutation operation →
        s.next ∈ t.mutations ∧ s.gate.acceptingOperations = true)
      (drain : work.draining = true → t.gate.acceptingOperations = false ∧ t.Held work) : Evolves s t
  | fans {s t : StoreService} {n : Nat} {pending : List Nat} (unfinished : s.Unfinished n)
      (placing : s.progress n = .placing) (h : Fanned n pending s t) : Evolves s t
  | drains {s : StoreService} {d : Nat} {progress : Progress}
      (before : (s.progress d).draining = true) (after : progress.draining = true)
      (held : s.reopened ≤ d → s.Held progress) : Evolves s (s.setProgress d progress)
  | trans {s t u : StoreService} (first : Evolves s t) (second : Evolves t u) : Evolves s u

theorem Evolves.refl (s : StoreService) : Evolves s s :=
  .alike ⟨rfl, rfl, rfl, rfl, rfl, id, fun _ hm _ => hm⟩

theorem Tracking.evolves (h : s.Tracking) (he : Evolves s t) : t.Tracking := by
  induction he with
  | alike ha => exact h.alike ha
  | moves hm => exact h.moves hm
  | enlists hen fanout idle mutation drain => exact h.enlists hen fanout idle mutation drain
  | fans unfinished placing hf => exact h.fans unfinished placing hf
  | drains before after held => exact h.drains before after held
  | trans _ _ ihfirst ihsecond => exact ihsecond (ihfirst h)

structure Later (s t : StoreService) : Prop where
  next : s.next ≤ t.next
  role : ∀ n < s.next, t.role n = s.role n
  ended : ∀ n, s.progress n = .ended → t.progress n = .ended
  gate : s.gate.acceptingOperations = false → t.gate.acceptingOperations = false
  admitted : s.gate.acceptingOperations = false → ∀ n operation, t.role n = .mutation operation →
    s.role n = .mutation operation

theorem Later.trans {u : StoreService} (h : Later s t) (h' : Later t u) : Later s u where
  next := Nat.le_trans h.next h'.next
  role n hn := (h'.role n (Nat.lt_of_lt_of_le hn h.next)).trans (h.role n hn)
  ended n hn := h'.ended n (h.ended n hn)
  gate hclosed := h'.gate (h.gate hclosed)
  admitted hclosed n operation hn :=
    h.admitted hclosed n operation (h'.admitted (h.gate hclosed) n operation hn)

theorem Moves.later (h : Moves n s t) : Later s t where
  next := Nat.le_of_eq h.next.symm
  role m _ := congrFun h.role m
  ended m hm := by
    refine (h.others m ?_).trans hm
    rintro rfl
    have hlive := h.live
    rw [hm] at hlive
    cases hlive
  gate hclosed := h.gate ▸ hclosed
  admitted _ m _ hm := (congrFun h.role m).symm.trans hm

theorem Alike.later (h : Alike s t) : Later s t where
  next := Nat.le_of_eq h.next.symm
  role m _ := congrFun h.role m
  ended m hm := (congrFun h.progress m).trans hm
  gate := h.gate
  admitted _ m _ hm := (congrFun h.role m).symm.trans hm

theorem Enlisted.later {role : Role} {work : Progress} (h : Enlisted role work s t) (ht : s.Tracking)
    (hmutation : ∀ operation, role = .mutation operation → s.gate.acceptingOperations = true) : Later s t where
  next := h.next ▸ Nat.le_succ _
  role m hm := (h.role m).trans (if_neg (Nat.ne_of_lt hm))
  ended m hm := by
    have hlt := ht.lt_next (n := m) (by rw [hm]; nofun)
    rw [h.progress, if_neg (Nat.ne_of_lt hlt), hm]
  gate := h.gate
  admitted hclosed m operation hm := by
    rw [h.role] at hm
    split at hm
    · have hopen := hmutation operation hm
      rw [hclosed] at hopen
      cases hopen
    · exact hm

theorem Fanned.later {pending : List Nat} (h : Fanned n pending s t) (ht : s.Tracking)
    (hp : s.progress n = .placing) : Later s t where
  next := h.next
  role := h.role
  ended m hm := by
    rw [h.progress m (ht.lt_next (by rw [hm]; nofun)), hm]
    rintro rfl
    cases hp.symm.trans hm
  gate hclosed := h.gate ▸ hclosed
  admitted _ m operation hm := by
    rcases Nat.lt_or_ge m s.next with hlt | hge
    · exact (h.role m hlt).symm.trans hm
    · rcases h.born m hge with ⟨_, hrole⟩ | ⟨_, hfanout, _⟩
      · exact hrole.symm.trans hm
      · cases hfanout.symm.trans hm

theorem Evolves.later (he : Evolves s t) (h : s.Tracking) : Later s t := by
  induction he with
  | alike ha => exact ha.later
  | moves hm => exact hm.later
  | enlists hen _ _ mutation _ => exact hen.later h fun operation hop => (mutation operation hop).2
  | fans _ placing hf => exact hf.later h placing
  | drains before _ _ =>
    refine ⟨Nat.le_refl _, fun _ _ => rfl, ?_, id, fun _ _ _ hm => hm⟩
    intro m hm
    refine (Function.update_of_ne ?_ _ _).trans hm
    rintro rfl
    rw [hm] at before
    cases before
  | trans first _ ihfirst ihsecond => exact (ihfirst h).trans (ihsecond (h.evolves first))

end StoreService

end Tourillon
