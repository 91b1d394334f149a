import Tourillon.Schema.Record

namespace Tourillon

open Endian Key ObligationKey

theorem HLCTimestamp.encode_append_lt {t t' : HLCTimestamp} (h : t.Encodable) (h' : t'.Encodable)
    (hlt : toLex (t.wallMs, t.counter) < toLex (t'.wallMs, t'.counter)) (xs ys : Bytes) :
    t.encode ++ xs < t'.encode ++ ys := by
  simp only [encode, List.append_assoc, toBE_append_lt_iff h.1 h'.1, toBE_append_lt_iff h.2 h'.2]
  rcases (Prod.Lex.toLex_lt_toLex.mp hlt) with hwall | ⟨hwall, hcounter⟩
  · exact .inl hwall
  · exact .inr ⟨hwall, .inl hcounter⟩

namespace Key

def moment (k : Key) : ℕ ×ₗ ℕ := toLex (k.ts.wallMs, k.ts.counter)

theorem encode_tags_lt_of_moment {k k' : Key} (h : k.Encodable) (h' : k'.Encodable)
    (hpid : k.pid = k'.pid) (hlt : k.moment < k'.moment) : k.encode .tags < k'.encode .tags := by
  simp only [encode, hpid]
  rw [append_lt_append_iff rfl]
  exact .inr ⟨rfl, HLCTimestamp.encode_append_lt h.2.2 h'.2.2 hlt _ _⟩

theorem moment_le_of_encode_tags_lt {k k' : Key} (h : k.Encodable) (h' : k'.Encodable)
    (hpid : k.pid = k'.pid) (hlt : k.encode .tags < k'.encode .tags) : k.moment ≤ k'.moment := by
  by_contra hnot
  exact lt_asymm hlt (encode_tags_lt_of_moment h' h hpid.symm (not_le.mp hnot))

end Key

def LawfulKeyspace (ks : Keyspace) : Prop :=
  (∀ (k : Key) (b : Bytes), k.toBytes ks = .ok b → fromBytes ks b = .ok k) ∧
  ∀ (k k' : Key) (b : Bytes), k.toBytes ks = .ok b → k'.toBytes ks = .ok b → k = k'

theorem LawfulKeyspace.of_roundTrip {ks : Keyspace}
    (h : ∀ (k : Key) (b : Bytes), k.toBytes ks = .ok b → fromBytes ks b = .ok k) : LawfulKeyspace ks := by
  refine ⟨h, ?_⟩
  intro k k' b hk hk'
  have hback := h k b hk
  rw [h k' b hk'] at hback
  exact (Except.ok.inj hback).symm

theorem lawful_logs : LawfulKeyspace .logs := by
  apply LawfulKeyspace.of_roundTrip
  intro k b h
  obtain ⟨hk, rfl⟩ := toBytes_logs_eq_ok.mp h
  exact fromBytes_logs_encode hk

theorem lawful_tags : LawfulKeyspace .tags := by
  apply LawfulKeyspace.of_roundTrip
  intro k b h
  obtain ⟨hk, rfl⟩ := toBytes_tags_eq_ok.mp h
  exact fromBytes_tags_encode hk

theorem ObligationKey.fromBytes_toBytes {o : ObligationKey} {b : Bytes} (h : o.toBytes = .ok b) :
    fromBytes b = .ok o := by
  obtain ⟨ho, rfl⟩ := toBytes_eq_ok.mp h
  exact fromBytes_encode ho

theorem Key.startsWith_address_iff {k : Key} {a : PartitionAddress} {b start : Bytes}
    (hk : k.toBytes .logs = .ok b) (ha : a.toBytes = .ok start) :
    start <+: b ↔ k.pid = a.pid ∧ k.address = a.address := by
  obtain ⟨hkey, rfl⟩ := toBytes_logs_eq_ok.mp hk
  obtain ⟨haddr, rfl⟩ := PartitionAddress.toBytes_eq_ok.mp ha
  rw [prefix_logs_iff haddr hkey]
  obtain ⟨pid, address⟩ := a
  simp [partitionAddress]

theorem Key.metadata_eq_iff {k k' : Key} {b b' : Bytes} (h : k.toBytes .metadata = .ok b)
    (h' : k'.toBytes .metadata = .ok b') : b = b' ↔ k.partitionAddress = k'.partitionAddress := by
  obtain ⟨ha, rfl⟩ := PartitionAddress.toBytes_eq_ok.mp h
  obtain ⟨ha', rfl⟩ := PartitionAddress.toBytes_eq_ok.mp h'
  constructor
  · intro heq
    have hw := PartitionAddress.walk_encode ha 0 []
    rw [heq, PartitionAddress.walk_encode ha' 0 []] at hw
    exact (congrArg Prod.fst (Except.ok.inj hw)).symm
  · exact congrArg PartitionAddress.encode

theorem key_encodings_faithful : (∀ ks ∈ [Keyspace.logs, Keyspace.tags], LawfulKeyspace ks) ∧
    (∀ (o : ObligationKey) b, o.toBytes = .ok b → fromBytes b = .ok o) ∧
    (∀ (o o' : ObligationKey) b, o.toBytes = .ok b → o'.toBytes = .ok b → o = o') ∧
    (∀ (k : Key) (a : PartitionAddress) b start, k.toBytes .logs = .ok b → a.toBytes = .ok start →
      (start <+: b ↔ k.pid = a.pid ∧ k.address = a.address)) ∧
    (∀ (k k' : Key) b b', k.toBytes .metadata = .ok b → k'.toBytes .metadata = .ok b' →
      (b = b' ↔ k.partitionAddress = k'.partitionAddress)) ∧
    ∀ (k k' : Key) b b', k.toBytes .tags = .ok b → k'.toBytes .tags = .ok b' → k.pid = k'.pid →
      (k.moment < k'.moment → b < b') ∧ (b < b' → k.moment ≤ k'.moment) := by
  refine ⟨?_, fun o b h => o.fromBytes_toBytes h, ?_, ?_, fun _ _ _ _ => metadata_eq_iff, ?_⟩
  · intro ks hks
    rcases List.mem_pair.mp hks with rfl | rfl
    · exact lawful_logs
    · exact lawful_tags
  · intro o o' b h h'
    have hback := o.fromBytes_toBytes h
    rw [o'.fromBytes_toBytes h'] at hback
    exact (Except.ok.inj hback).symm
  · intro k a b start hk ha
    exact startsWith_address_iff hk ha
  · intro k k' b b' hk hk' hpid
    obtain ⟨hkey, rfl⟩ := toBytes_tags_eq_ok.mp hk
    obtain ⟨hkey', rfl⟩ := toBytes_tags_eq_ok.mp hk'
    exact ⟨encode_tags_lt_of_moment hkey hkey' hpid, moment_le_of_encode_tags_lt hkey hkey' hpid⟩

namespace Sample

theorem metadata_forgets_version :
    ∃ (k k' : Key) (b : Bytes), k.toBytes .metadata = .ok b ∧ k'.toBytes .metadata = .ok b ∧ k ≠ k' :=
  ⟨⟨0, ⟨[1], [2]⟩, ⟨9, 0, "a", by decide⟩⟩, ⟨0, ⟨[1], [2]⟩, ⟨10, 0, "a", by decide⟩⟩,
    [0, 0, 0, 0, 1, 2, 1, 1], by decide⟩

end Sample

end Tourillon
