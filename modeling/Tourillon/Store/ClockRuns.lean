import Tourillon.Library.Machine
import Tourillon.Store.Clock

namespace Tourillon

open List

namespace HLCClock

theorem clock_strictly_monotone (c : HLCClock) (calls : List ClockCall) :
    (c.transcript calls).Pairwise (fun earlier later => ∀ t ∈ later.returned,
      (∀ t' ∈ earlier.returned, t' < t) ∧ ∀ r ∈ earlier.given, r.stamp < t.stamp) ∧
    ∀ e ∈ c.transcript calls, ∀ t ∈ e.returned, ∀ r ∈ e.given, r.stamp < t.stamp := by
  induction calls generalizing c with
  | nil => exact ⟨List.Pairwise.nil, nofun⟩
  | cons a calls ih =>
    obtain ⟨hpairs, hown⟩ := ih (c.call a).2
    refine ⟨pairwise_cons.mpr ⟨?_, hpairs⟩, ?_⟩
    · intro later hlater t ht
      have hafter := (c.call a).2.transcript_after calls later hlater t ht
      refine ⟨?_, ?_⟩
      · intro t' ht'
        apply HLCTimestamp.lt_of_stamp_lt
        rw [← (c.call_returned a t' ht').2.1]
        exact hafter
      · intro r hr
        exact ((c.call_advances a).2 r hr).trans_lt hafter
    · intro e he t ht r hr
      rcases mem_cons.mp he with rfl | hrest
      · exact (c.call_returned a t ht).2.2 r hr
      · exact hown e hrest t ht r hr

end HLCClock

namespace ClockCall

def Valid : ClockCall → Prop
  | .tick nowMs => nowMs < 2 ^ 64
  | .update remote nowMs => remote.Encodable ∧ nowMs < 2 ^ 64
  | .restore ts => ts.Encodable

instance : (a : ClockCall) → Decidable a.Valid
  | .tick nowMs => inferInstanceAs (Decidable (nowMs < 2 ^ 64))
  | .update remote nowMs => inferInstanceAs (Decidable (remote.Encodable ∧ nowMs < 2 ^ 64))
  | .restore ts => inferInstanceAs (Decidable ts.Encodable)

def Roomy (c : HLCClock) : ClockCall → Prop
  | .tick nowMs => c.wallMs < nowMs ∨ c.counter + 1 < 2 ^ 16
  | .update remote nowMs =>
    (nowMs ≤ c.wallMs → remote.wallMs ≤ c.wallMs → c.counter + 1 < 2 ^ 16) ∧
      (nowMs ≤ remote.wallMs → c.wallMs ≤ remote.wallMs → remote.counter + 1 < 2 ^ 16)
  | .restore _ => True

instance (c : HLCClock) : (a : ClockCall) → Decidable (a.Roomy c)
  | .tick nowMs => inferInstanceAs (Decidable (c.wallMs < nowMs ∨ c.counter + 1 < 2 ^ 16))
  | .update remote nowMs => inferInstanceAs (Decidable
      ((nowMs ≤ c.wallMs → remote.wallMs ≤ c.wallMs → c.counter + 1 < 2 ^ 16) ∧
        (nowMs ≤ remote.wallMs → c.wallMs ≤ remote.wallMs → remote.counter + 1 < 2 ^ 16)))
  | .restore _ => inferInstanceAs (Decidable True)

end ClockCall

namespace HLCClock

def Storable (c : HLCClock) (a : ClockCall) : Prop := a.Valid ∧ a.Roomy c

instance (c : HLCClock) (a : ClockCall) : Decidable (c.Storable a) := inferInstanceAs (Decidable (_ ∧ _))

theorem call_encodable {c : HLCClock} {a : ClockCall} (ha : c.Storable a)
    (hc : c.snapshot.Encodable) : (c.call a).2.snapshot.Encodable := by
  obtain ⟨hvalid, hroom⟩ := ha
  obtain ⟨hwall, hcounter⟩ := hc
  cases a with
  | tick nowMs =>
    have hnow : nowMs < 2 ^ 64 := hvalid
    have hfree : c.wallMs < nowMs ∨ c.counter + 1 < 2 ^ 16 := hroom
    simp only [snapshot] at hwall hcounter
    simp only [call, tick, advance, snapshot, HLCTimestamp.Encodable]
    split_ifs with hlater
    · constructor <;> dsimp only <;> omega
    · constructor <;> dsimp only <;> omega
  | update remote nowMs =>
    obtain ⟨⟨hrwall, hrcounter⟩, hnow⟩ := hvalid
    obtain ⟨hlocal, hremote⟩ := hroom
    simp only [snapshot] at hwall hcounter
    simp only [call, update, merge, snapshot, HLCTimestamp.Encodable]
    refine ⟨by omega, ?_⟩
    split_ifs <;> omega
  | restore ts =>
    obtain ⟨htwall, htcounter⟩ : ts.Encodable := hvalid
    simp only [snapshot] at hwall hcounter
    simp only [call, restore, snapshot, HLCTimestamp.Encodable]
    split_ifs
    · exact ⟨htwall, htcounter⟩
    · exact ⟨hwall, max_lt hcounter htcounter⟩
    · exact ⟨hwall, hcounter⟩

theorem stamps_storable {c : HLCClock} (hc : c.snapshot.Encodable) {calls : List ClockCall}
    (h : Machine.Along (fun c a => (call c a).2) Storable c calls) :
    ∀ e ∈ c.transcript calls, ∀ t ∈ e.returned, ∃ b, t.toBytes = .ok b := by
  induction calls generalizing c with
  | nil => nofun
  | cons a calls ih =>
    obtain ⟨ha, hrest⟩ := h
    have hnext := call_encodable ha hc
    intro e he t ht
    rcases mem_cons.mp he with rfl | he
    · have ht' := (c.call_returned a t ht).2.1
      rw [ht'] at hnext
      exact ⟨_, HLCTimestamp.toBytes_eq_ok.mpr ⟨hnext, rfl⟩⟩
    · exact ih hnext hrest e he t ht

theorem standing_ticks (c : HLCClock) {nowMs : Int} (h : nowMs ≤ c.wallMs) (n : Nat) :
    (c.transcript (replicate (n + 1) (.tick nowMs))).getLast? =
      some ⟨none, some ⟨c.wallMs, c.counter + (n + 1), c.nodeId, c.size⟩⟩ := by
  have hstep : c.advance nowMs = { c with counter := c.counter + 1 } := if_neg (not_lt.mpr h)
  induction n generalizing c with
  | zero =>
    simp only [replicate_succ, replicate_zero, transcript, call, tick, hstep]
    rfl
  | succ n ih =>
    rw [replicate_succ, transcript, getLast?_cons]
    simp only [call, tick, hstep]
    rw [ih { c with counter := c.counter + 1 } h (if_neg (not_lt.mpr h))]
    rw [Option.getD_some, Nat.add_assoc, Nat.add_comm 1]

end HLCClock

namespace Sample

def freshClock : HLCClock := ⟨"a", 0, 0, size_a⟩

def fullCounter : HLCTimestamp := ⟨5, 65535, "b", size_b⟩

theorem clock_outgrows_encoding :
    (∃ t, (freshClock.transcript (replicate 65536 (.tick 0))).getLast? = some ⟨none, some t⟩ ∧
      t.toBytes = .error (.overflowError "int too big to convert")) ∧ fullCounter.Encodable ∧
    ∃ t, freshClock.transcript [.update fullCounter 0] = [⟨some fullCounter, some t⟩] ∧
      t.toBytes = .error (.overflowError "int too big to convert") := by
  refine ⟨⟨_, freshClock.standing_ticks (by decide) 65535, by decide⟩, by decide, _, rfl, by decide⟩

theorem restored_clock_storable : freshClock.snapshot.Encodable ∧
    ∀ e ∈ freshClock.transcript [.restore fullCounter, .tick 6, .tick 6],
      ∀ t ∈ e.returned, ∃ b, t.toBytes = .ok b :=
  ⟨by decide, HLCClock.stamps_storable (by decide) ⟨by decide, by decide, by decide, trivial⟩⟩

end Sample

end Tourillon
