import Tourillon.Gossip.Service
import Tourillon.Library.Framing
import Tourillon.Library.Utf8

namespace Tourillon

open Endian Exceptional Prog Framing TopologyCall TopologyManager List MemberRegistry

def MemberRegistry.delimited (r : MemberRegistry) : Bool :=
  r.entries.all fun e => e.2.epoch < 256 ^ 7 && e.2.nodeId.toList.all fun c => c.toNat ≠ 0

def fingerprintPart (d : String × Nat) : Bytes := encodeUtf8 d.1 ++ toBE 8 d.2

structure Delimited (d : String × Nat) : Prop where
  epoch : d.2 < 256 ^ 7
  nodeId : ∀ c ∈ d.1.toList, c.toNat ≠ 0

def Forked (l l' : List (String × Nat)) : Prop :=
  ∃ common d d' rest rest', l = common ++ d :: rest ∧ l' = common ++ d' :: rest' ∧ d.1 ≠ d'.1 ∧
    (encodeUtf8 d.1 <+: encodeUtf8 d'.1 ∨ encodeUtf8 d'.1 <+: encodeUtf8 d.1)

theorem not_forked_self (l : List (String × Nat)) : ¬ Forked l l := by
  rintro ⟨common, d, d', rest, rest', rfl, heq, hne, _⟩
  exact hne (by rw [(cons.inj (append_cancel_left heq)).1])

theorem fingerprintPart_ne_nil (d : String × Nat) : fingerprintPart d ≠ [] :=
  fun hnil => toBE_ne_nil (by decide) (append_eq_nil_iff.mp hnil).2

theorem forked_of_fingerprints {l l' : List (String × Nat)} (hl : ∀ d ∈ l, d.2 < 256 ^ 8)
    (hl' : ∀ d ∈ l', d.2 < 256 ^ 8) (h : l.flatMap fingerprintPart = l'.flatMap fingerprintPart)
    (hne : l ≠ l') : Forked l l' := by
  obtain ⟨common, d, d', rest, rest', rfl, rfl, hdiffer, heq⟩ := exists_fork fingerprintPart_ne_nil h hne
  rw [fingerprintPart, fingerprintPart, append_assoc, append_assoc] at heq
  refine ⟨common, d, d', rest, rest', rfl, rfl, fun hid => hdiffer (Prod.ext hid ?_), ?_⟩
  · rw [hid] at heq
    obtain ⟨hepoch, _⟩ := append_inj (append_cancel_left heq) (by simp)
    exact toBE_inj (hl d (by simp)) (hl' d' (by simp)) hepoch
  · exact prefix_or_prefix_of_prefix (prefix_append _ _) (heq.symm ▸ prefix_append _ _)

theorem MemberRegistry.delimited_listing {r : MemberRegistry} (h : r.delimited = true)
    {d : String × Nat} (hd : d ∈ r.listing) : Delimited d := by
  obtain ⟨e, he, rfl⟩ := mem_map.mp hd
  have hentry := all_eq_true.mp h e he
  simp only [Bool.and_eq_true, decide_eq_true_eq, all_eq_true] at hentry
  exact ⟨hentry.1, hentry.2⟩

theorem fingerprintPart_selfDelimiting : SelfDelimiting Delimited fingerprintPart where
  peel := by
    rintro ⟨nodeId, epoch⟩ ⟨nodeId', epoch'⟩ x y h h' heq
    simp only [fingerprintPart, toBE_succ_of_lt h.epoch, toBE_succ_of_lt h'.epoch, append_assoc, cons_append] at heq
    obtain ⟨hnode, hrest⟩ := append_cons_inj_left (Utf8.zero_notMem_bytes h.nodeId)
      (Utf8.zero_notMem_bytes h'.nodeId) heq
    obtain ⟨hepoch, htail⟩ := append_inj hrest (by simp)
    have hid : nodeId = nodeId' := encodeUtf8_inj hnode
    have hnumber : epoch = epoch' := toBE_inj h.epoch h'.epoch hepoch
    exact ⟨by rw [hid, hnumber], htail⟩
  nonempty := fingerprintPart_ne_nil

theorem MemberRegistry.Keyed.sorted_listing {r : MemberRegistry} (h : r.Keyed) :
    r.listing.Pairwise fun a b => a.1 < b.1 := by
  refine pairwise_map.mpr (r.sorted.imp_of_mem ?_)
  intro a b ha hb hlt
  rwa [h a.1 a.2 (OrderedMap.get_eq_some.mpr ha), h b.1 b.2 (OrderedMap.get_eq_some.mpr hb)]

theorem MemberRegistry.Keyed.listing_eq_iff {r r' : MemberRegistry} (h : r.Keyed) (h' : r'.Keyed) :
    r.listing = r'.listing ↔ ∀ nodeId, r.epochOf nodeId = r'.epochOf nodeId := by
  constructor
  · intro heq nodeId
    apply Option.ext
    intro epoch
    rw [h.epochOf_eq, h'.epochOf_eq, heq]
  · intro heq
    refine h.sorted_listing.eq_of_mem_iff h'.sorted_listing fun d => ?_
    rw [← h.epochOf_eq, ← h'.epochOf_eq, heq]

section Fingerprints

variable [Digests] {r : MemberRegistry} {found : String} {between : List TopologyCall} {t t' : TopologyManager}

theorem computeFingerprint_eq (h : computeFingerprint r = .ok found) :
    found = Digests.sha256 (r.listing.flatMap fingerprintPart) ∧ ∀ d ∈ r.listing, d.2 < 256 ^ 8 := by
  simp only [computeFingerprint, bind_eq_ok, pure_eq_ok] at h
  obtain ⟨parts, hparts, rfl⟩ := h
  have hpart {e : String × Member} {part : Bytes}
      (hpart : (do
        let epoch ← intToBytes e.2.epoch 8
        pure (encodeUtf8 e.2.nodeId ++ epoch)) = .ok part) :
      part = fingerprintPart (e.2.nodeId, e.2.epoch) ∧ e.2.epoch < 256 ^ 8 := by
    simp only [bind_eq_ok, pure_eq_ok] at hpart
    obtain ⟨epoch, hepoch, rfl⟩ := hpart
    rw [(intToBytes_eq_ok.mp hepoch).2]
    exact ⟨rfl, (intToBytes_eq_ok.mp hepoch).1⟩
  have hmap : parts = r.entries.map fun e => fingerprintPart (e.2.nodeId, e.2.epoch) :=
    mapM_ok_eq_map (fun e _ part h => (hpart h).1) hparts
  constructor
  · rw [hmap, listing, flatMap_map]
    rfl
  · intro d hd
    obtain ⟨e, he, rfl⟩ := mem_map.mp hd
    obtain ⟨part, _, heq⟩ := exists_of_mem_mapM hparts he
    exact (hpart heq).2

theorem pong_fingerprint {s : GossipService} {request : GossipPing} {pong : GossipPong}
    (hcached : (between.foldl run t).Cached) (h : s.pong between request t = (.ok pong, t'))
    (hsame : pong.same = true) : computeFingerprint (between.foldl run t).registry =
      .ok request.fingerprint := by
  obtain ⟨topology, t₁, htopology, h⟩ := of_bind_ok h
  cases htopology
  obtain ⟨_, t₂, hmodify, h⟩ := of_bind_ok h
  cases hmodify
  obtain ⟨fingerprint, t₃, hfingerprint, h⟩ := of_bind_ok h
  cases h
  have hresult := hcached.memberFingerprint
  rw [hfingerprint] at hresult
  simp only [Bool.and_eq_true, decide_eq_true_eq] at hsame
  rw [hsame.1]
  exact hresult.symm

theorem ping_fingerprint {g : Gossiper} {ping : GossipPing} (hcached : t.Cached)
    (h : g.buildPing between t = (.ok ping, t')) : computeFingerprint t.registry = .ok ping.fingerprint := by
  obtain ⟨fingerprint, t₁, hfingerprint, h⟩ := of_bind_ok h
  obtain ⟨_, t₂, hmodify, h⟩ := of_bind_ok h
  obtain ⟨topology, t₃, htopology, h⟩ := of_bind_ok h
  cases h
  have hresult := hcached.memberFingerprint
  rw [hfingerprint] at hresult
  exact hresult.symm

end Fingerprints

namespace Sample

theorem transcript_injective : Function.Injective transcript := by
  intro a b h
  have hlists : a.map (fun x => Char.ofNat x.toNat) = b.map fun x => Char.ofNat x.toNat := by
    simpa [transcript] using congrArg String.toList h
  refine map_injective_iff.mpr ?_ hlists
  have hread : ∀ n < 256, (Char.ofNat n).toNat = n := by decide +kernel
  intro x y hxy
  rw [← UInt8.toNat_inj, ← hread x.toNat x.toNat_lt, ← hread y.toNat y.toNat_lt]
  exact congrArg Char.toNat hxy

def shortFirst : List Member := [⟨"a", "a:1", 0x6263646566676869, .idle, []⟩, ⟨"jk", "j:1", 1, .idle, []⟩]

def longFirst : List Member := [⟨"ab", "a:1", 0x636465666768696a, .idle, []⟩, ⟨"k", "k:1", 1, .idle, []⟩]

def farAhead : Member := { resting with epoch := 2 ^ 60 }

end Sample

end Tourillon
