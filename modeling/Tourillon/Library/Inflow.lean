import Tourillon.Library.Program

structure StreamReader (β : Type) where
  buffer : List β
  arriving : List (List β)

namespace StreamReader

open Prog List

variable {α β ε : Type} {s : StreamReader β}

def pending (s : StreamReader β) : List β := s.buffer ++ s.arriving.flatten

def fill (n : Nat) (buffer : List β) : List (List β) → StreamReader β
  | [] => ⟨buffer, []⟩
  | chunk :: rest => if n ≤ buffer.length then ⟨buffer, chunk :: rest⟩ else fill n (buffer ++ chunk) rest

def readExactly (n : Nat) : Prog (StreamReader β) (List β) (List β) := fun s =>
  match fill n s.buffer s.arriving with
  | ⟨buffer, arriving⟩ =>
    if n ≤ buffer.length then (.ok (buffer.take n), ⟨buffer.drop n, arriving⟩)
    else (.error buffer, ⟨[], arriving⟩)

theorem pending_fill (n : Nat) (buffer : List β) (arriving : List (List β)) :
    (fill n buffer arriving).pending = buffer ++ arriving.flatten := by
  induction arriving generalizing buffer with
  | nil => rfl
  | cons chunk rest ih =>
    rw [fill]
    split
    · rfl
    · rw [ih, flatten_cons, append_assoc]

theorem fill_enough (n : Nat) (buffer : List β) (arriving : List (List β)) :
    n ≤ (fill n buffer arriving).buffer.length ∨ (fill n buffer arriving).arriving = [] := by
  induction arriving generalizing buffer with
  | nil => exact .inr rfl
  | cons chunk rest ih =>
    rw [fill]
    split
    · rename_i hn
      exact .inl hn
    · exact ih _

theorem readExactly_ok {front rest : List β} (h : s.pending = front ++ rest) :
    ∃ s', readExactly front.length s = (.ok front, s') ∧ s'.pending = rest := by
  have hpending := (pending_fill front.length s.buffer s.arriving).trans h
  have henough := fill_enough front.length s.buffer s.arriving
  unfold readExactly
  generalize fill front.length s.buffer s.arriving = filled at hpending henough
  obtain ⟨buffer, arriving⟩ := filled
  have hlength : front.length ≤ buffer.length := by
    rcases henough with hle | hend
    · exact hle
    · obtain rfl : arriving = [] := hend
      have htotal := congrArg length hpending
      simp only [pending, flatten_nil, append_nil, length_append] at htotal
      omega
  dsimp only
  rw [if_pos hlength]
  have hcut : buffer.take front.length = front ∧ buffer.drop front.length ++ arriving.flatten = rest := by
    have hsplit : buffer.take front.length ++ (buffer.drop front.length ++ arriving.flatten) =
        front ++ rest := by
      rw [← append_assoc, take_append_drop]
      exact hpending
    exact append_inj hsplit (by rw [length_take, Nat.min_eq_left hlength])
  refine ⟨⟨buffer.drop front.length, arriving⟩, ?_, hcut.2⟩
  rw [hcut.1]

theorem readExactly_short {n : Nat} (h : s.pending.length < n) :
    ∃ s', readExactly n s = (.error s.pending, s') := by
  have hpending := pending_fill n s.buffer s.arriving
  have henough := fill_enough n s.buffer s.arriving
  change _ = s.pending at hpending
  unfold readExactly
  generalize fill n s.buffer s.arriving = filled at hpending henough
  obtain ⟨buffer, arriving⟩ := filled
  rw [← hpending] at h ⊢
  simp only [pending, length_append] at h
  obtain rfl : arriving = [] := by
    rcases henough with hle | hend
    · dsimp only at hle
      omega
    · exact hend
  dsimp only
  rw [if_neg (by omega)]
  refine ⟨⟨[], []⟩, ?_⟩
  simp [pending]

theorem readExactly_ended (h : s.pending = []) {n : Nat} (hn : 1 ≤ n) :
    ∃ s', readExactly n s = (.error [], s') := by
  have hshort : s.pending.length < n := by
    rw [h, length_nil]
    omega
  rw [← h]
  exact readExactly_short hshort

theorem readExactly_cases (n : Nat) (s : StreamReader β) :
    (∃ front s', (s.pending = front ++ s'.pending ∧ front.length = n) ∧ readExactly n s = (.ok front, s')) ∨
    s.pending.length < n ∧ ∃ s', readExactly n s = (.error s.pending, s') := by
  rcases Nat.lt_or_ge s.pending.length n with hshort | henough
  · exact .inr ⟨hshort, readExactly_short hshort⟩
  · have hlength : (s.pending.take n).length = n := by
      rw [length_take, Nat.min_eq_left henough]
    have hsplit : s.pending = s.pending.take n ++ s.pending.drop n := (take_append_drop ..).symm
    obtain ⟨s', hread, hrest⟩ := readExactly_ok hsplit
    rw [hlength] at hread
    refine .inl ⟨s.pending.take n, s', ⟨?_, hlength⟩, hread⟩
    rw [hrest, take_append_drop]

theorem collect_frames {ι : Type} {encode : α → List β} {read : Prog (StreamReader β) ε α}
    (h : ∀ a s rest, s.pending = encode a ++ rest → ∃ s', read s = (.ok a, s') ∧ s'.pending = rest)
    {as : List α} {turns : List ι} (hturns : turns.length = as.length) {rest : List β}
    (hs : s.pending = (as.map encode).flatten ++ rest) :
    ∃ s', collect turns (fun _ => read) s = (.ok as, s') ∧ s'.pending = rest := by
  induction as generalizing s turns with
  | nil =>
    obtain rfl := length_eq_zero_iff.mp hturns
    exact ⟨s, rfl, hs⟩
  | cons a as ih =>
    obtain ⟨i, turns, rfl⟩ := exists_cons_of_length_eq_add_one hturns
    rw [map_cons, flatten_cons, append_assoc] at hs
    obtain ⟨s₁, hread, hpending⟩ := h a s _ hs
    obtain ⟨s₂, hcollect, hrest⟩ := ih (Nat.add_right_cancel hturns) hpending
    refine ⟨s₂, ?_, hrest⟩
    rw [collect, bind_ok hread, bind_ok hcollect]
    rfl

end StreamReader
