import Tourillon.Storage.Collection

namespace Tourillon

open Endian Exceptional GroupStorage Key List

variable {g : GroupStorage}

structure TagPage (g : GroupStorage) (after : Option Bytes) (ks : List Key) : Prop where
  keys : (g.tags.entries.filter fun e => decide (∀ b ∈ after, b < e.1)).map Prod.fst =
    ks.map (encode .tags)
  encodable : ∀ k ∈ ks, k.Encodable

theorem list_tags_eq (g : GroupStorage) (after : Option Bytes) (limit : Nat) : g.list .tags none after limit =
      (g.tags.entries.filter fun e => decide (∀ b ∈ after, b < e.1)).take limit := by
  have hall (es : List (Bytes × Bytes)) :
      es.takeWhile (fun e => startsWith none e.1) = es :=
    takeWhile_eq_self_iff.mpr fun _ _ => rfl
  rw [list, hall]
  congr 1
  cases after with
  | none => simp [positionCursor, db]
  | some b =>
    refine filter_congr fun e _ => ?_
    rw [decide_eq_decide]
    simp

theorem logPage_ok (hg : WellKeyed g.tags) (after : Option Bytes) (limit : Nat) :
    ∃ ks, g.logPage after limit = .ok (ks.take limit) ∧ TagPage g after ks := by
  have hdecoded (b : Bytes) (hb : b ∈ (g.tags.entries.filter fun e =>
      decide (∀ b ∈ after, b < e.1)).map Prod.fst) : ∃ k : Key, k.Encodable ∧ b = k.encode .tags := by
    obtain ⟨e, he, rfl⟩ := mem_map.mp hb
    exact hg e (mem_of_mem_filter he)
  obtain ⟨ks, hks, henc⟩ := Sequence.exists_eq_map hdecoded
  refine ⟨ks, ?_, hks, henc⟩
  have hround (k : Key) (hk : k ∈ ks.take limit) :
      (fromBytes .tags ∘ encode .tags) k = .ok (id k) :=
    fromBytes_tags_encode (henc k (mem_of_mem_take hk))
  have hpage : (g.list .tags none after limit).map Prod.fst = (ks.take limit).map (encode .tags) := by
    rw [list_tags_eq, map_take, hks, map_take]
  have hmap : g.logPage after limit =
      ((g.list .tags none after limit).map Prod.fst).mapM (fromBytes .tags) := by
    rw [mapM_map]
    rfl
  rw [hmap, hpage, mapM_map, mapM_ok_of_forall hround, map_id]

namespace TagPage

variable {g : GroupStorage} {after : Option Bytes} {ks : List Key} {k last : Key} {limit : Nat}

theorem ascending (h : TagPage g after ks) : ks.Pairwise fun a b => a.encode .tags < b.encode .tags := by
  have hsorted : (ks.map (encode .tags)).Pairwise (· < ·) := by
    rw [← h.keys, pairwise_map]
    exact g.tags.sorted.filter _
  exact pairwise_map.mp hsorted

theorem later (h : TagPage g after ks) (hk : k ∈ ks) : ∀ b ∈ after, b < k.encode .tags := by
  have hin : k.encode .tags ∈ ks.map (encode .tags) := mem_map_of_mem hk
  rw [← h.keys] at hin
  obtain ⟨e, he, hkey⟩ := mem_map.mp hin
  rw [← hkey]
  exact of_decide_eq_true (mem_filter.mp he).2

theorem mem (hg : Sound g) (h : TagPage g after ks) (k : Key) :
    k ∈ ks ↔ k ∈ g.held ∧ ∀ b ∈ after, b < k.encode .tags := by
  constructor
  · intro hk
    have hin : k.encode .tags ∈ ks.map (encode .tags) := mem_map_of_mem hk
    rw [← h.keys] at hin
    obtain ⟨e, he, hkey⟩ := mem_map.mp hin
    have hget : g.tags.get (k.encode .tags) = some e.2 :=
      OrderedMap.get_eq_some.mpr (hkey ▸ mem_of_mem_filter he)
    exact ⟨(hg.mem_held_iff (h.encodable k hk)).mpr (by rw [hget]; rfl), h.later hk⟩
  · rintro ⟨hheld, hafter⟩
    have hkenc := hg.encodable_of_held hheld
    obtain ⟨v, hv⟩ := Option.isSome_iff_exists.mp ((hg.mem_held_iff hkenc).mp hheld)
    have hin : k.encode .tags ∈ ks.map (encode .tags) := by
      rw [← h.keys]
      exact mem_map.mpr ⟨_, mem_filter.mpr ⟨OrderedMap.get_eq_some.mp hv, decide_eq_true hafter⟩, rfl⟩
    obtain ⟨q, hq, heq⟩ := mem_map.mp hin
    rwa [← encode_tags_inj (h.encodable q hq) hkenc heq]

theorem through (h : TagPage g after ks) (hlast : (ks.take limit).getLast? = some last) (hk : k ∈ ks)
    (hle : k.encode .tags ≤ last.encode .tags) : k ∈ ks.take limit := by
  have hmem : last ∈ ks.take limit := mem_of_getLast? hlast
  have hsorted := h.ascending
  rw [← take_append_drop limit ks] at hk hsorted
  rcases mem_append.mp hk with htake | hdrop
  · exact htake
  · exact absurd ((pairwise_append.mp hsorted).2.2 last hmem k hdrop) (not_lt.mpr hle)

theorem upto (h : TagPage g after ks) (hlast : (ks.take limit).getLast? = some last) (hk : k ∈ ks.take limit) :
    k.encode .tags ≤ last.encode .tags := by
  obtain ⟨before, hsplit⟩ := getLast?_eq_some_iff.mp hlast
  have hsorted := h.ascending.sublist (take_sublist limit ks)
  rw [hsplit] at hk hsorted
  rcases mem_append.mp hk with hin | hin
  · exact ((pairwise_append.mp hsorted).2.2 k hin last (by simp)).le
  · rw [mem_singleton.mp hin]

end TagPage

theorem oldestKeys_ok (hg : Sound g) {addr : PartitionAddress} (ha : addr.Encodable) (limit : Nat) :
    ∃ ks, g.oldestKeys addr limit = .ok (ks.take limit) ∧ Logged g addr ks := by
  obtain ⟨ks, hks⟩ := exists_logged hg ha
  have henc (k : Key) (hk : k ∈ ks) : k.Encodable ∧ k.partitionAddress = addr := by
    obtain ⟨hheld, haddr⟩ := mem_versionsOf.mp ((hks.mem k).mp hk)
    exact ⟨hg.encodable_of_held hheld, haddr⟩
  have hkeys : g.keys .logs (some addr.encode) none limit = (ks.take limit).map (encode .logs) := by
    rw [GroupStorage.keys, list_prefix_eq, g.list_forward_eq .logs limit (List.prefix_refl _),
      List.map_take, List.map_take, ← hks.keys]
    congr 2
    refine List.filter_congr ?_
    intro e he
    rw [decide_eq_decide]
    refine ⟨fun h => h.2, fun h => ⟨?_, h⟩⟩
    obtain ⟨k, hk, hkey⟩ := hg.logKeys e he
    rw [hkey] at h ⊢
    obtain rfl := (prefix_logs_iff ha hk).mp h
    rw [encode_logs_eq]
    refine self_lt_append ?_
    rw [HLCTimestamp.encode]
    exact List.append_ne_nil_of_left_ne_nil (toBE_ne_nil (by decide)) _
  refine ⟨ks, ?_, hks⟩
  have hround (k : Key) (hk : k ∈ ks.take limit) :
      (fromBytes .logs ∘ encode .logs) k = .ok (id k) :=
    fromBytes_logs_encode (henc k (List.mem_of_mem_take hk)).1
  simp only [oldestKeys, PartitionAddress.toBytes_eq_ok.mpr ⟨ha, rfl⟩, bind, Except.bind, hkeys]
  rw [List.mapM_map, mapM_ok_of_forall hround, List.map_id]

end Tourillon
