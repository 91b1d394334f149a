import Tourillon.Storage.Session

namespace Tourillon

open Endian Exceptional List

variable {k : Key} {bucket : Nat}

def Key.tail (k : Key) : Bytes :=
  toBE 2 k.ts.counter ++ (toBE 2 (encodeUtf8 k.ts.nodeId).length ++ encodeUtf8 k.ts.nodeId) ++
    k.address.encode

theorem Key.encode_tags_eq (k : Key) : k.encode .tags = toBE pidSize k.pid ++ (toBE 8 k.ts.wallMs ++ k.tail) := by
  simp [Key.encode, HLCTimestamp.encode, Key.tail]

theorem Key.nil_lt_tail (k : Key) : [] < k.tail := by
  have hne : k.tail ≠ [] := by
    intro hn
    have hl := congrArg length hn
    simp only [Key.tail, length_append, length_toBE, length_nil] at hl
    omega
  have hlt : [] < [] ++ k.tail := self_lt_append hne
  exact hlt

def wallBound (pid wallMs : Nat) : Bytes := toBE pidSize pid ++ toBE 8 wallMs

theorem encode_lt_wallBound (hk : k.Encodable) {n : Nat} (hn : n < 256 ^ 8) :
    k.encode .tags < wallBound k.pid n ↔ k.ts.wallMs < n := by
  have happ := toBE_append_lt_iff hk.2.2.1 hn k.tail []
  rw [append_nil] at happ
  rw [Key.encode_tags_eq, wallBound, append_lt_append_iff rfl, happ]
  simp

theorem wallBound_lt_encode (hk : k.Encodable) {n : Nat} (hn : n < 256 ^ 8) :
    wallBound k.pid n < k.encode .tags ↔ n ≤ k.ts.wallMs := by
  have happ := toBE_append_lt_iff hn hk.2.2.1 [] k.tail
  rw [append_nil] at happ
  rw [Key.encode_tags_eq, wallBound, append_lt_append_iff rfl, happ, le_iff_lt_or_eq]
  simp [k.nil_lt_tail]

theorem pid_prefix_iff (hk : k.Encodable) {pid : Nat} (hp : pid < 256 ^ pidSize) :
    toBE pidSize pid <+: k.encode .tags ↔ k.pid = pid := by
  rw [Key.encode_tags_eq]
  constructor
  · intro h
    have heq := prefix_of_prefix_length_le h (prefix_append (toBE pidSize k.pid) _) (by simp)
    exact (toBE_inj hp hk.1 (heq.eq_of_length (by simp))).symm
  · rintro rfl
    exact prefix_append _ _

theorem bucketBounds_eq_ok {pid : Nat} {start stop : Bytes} (h : bucketBounds pid bucket = .ok (start, stop)) :
    pid < 256 ^ pidSize ∧ (bucket + 1) <<< bucketShift < 256 ^ 8 ∧ start = wallBound pid (bucket <<< bucketShift) ∧
      stop = wallBound pid ((bucket + 1) <<< bucketShift) := by
  simp only [bucketBounds, bind_eq_ok, intToBytes_eq_ok, pure_eq_ok, Prod.mk.injEq] at h
  obtain ⟨_, ⟨hp, rfl⟩, _, ⟨_, rfl⟩, _, ⟨hhi, rfl⟩, rfl, rfl⟩ := h
  exact ⟨hp, hhi, rfl, rfl⟩

theorem bucketOf_lt_iff {wallMs : Nat} : bucketOf wallMs < bucket ↔ wallMs < bucket <<< bucketShift := by
  rw [bucketOf_eq, Nat.shiftLeft_eq, Nat.div_lt_iff_lt_mul (by positivity)]

theorem shiftLeft_le_succ (bucket : Nat) : bucket <<< bucketShift ≤ (bucket + 1) <<< bucketShift := by
  rw [Nat.shiftLeft_eq, Nat.shiftLeft_eq]
  exact Nat.mul_le_mul_right _ (Nat.le_succ bucket)

theorem bucket_of_start (pid : Nat) (h : bucket <<< bucketShift < 256 ^ 8) :
    ofBE (((wallBound pid (bucket <<< bucketShift)).drop pidSize).take 8) >>> bucketShift = bucket := by
  have hdrop : (wallBound pid (bucket <<< bucketShift)).drop pidSize =
      toBE 8 (bucket <<< bucketShift) := drop_left' (by simp)
  rw [hdrop, take_of_length_le (by simp), ofBE_toBE h]
  rw [Nat.shiftLeft_eq, Nat.shiftRight_eq_div_pow]
  exact Nat.mul_div_cancel _ (by positivity)

end Tourillon
