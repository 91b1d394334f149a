import Tourillon.Gossip.Derivation
import Tourillon.Gossip.Service

namespace Tourillon

open Exceptional Prog Register Member MemberRegistry TopologyManager OrderedMap List

variable {r : MemberRegistry}

def MemberRegistry.records (r : MemberRegistry) : Set Member := {m | ∃ nodeId, r.get nodeId = some m}

theorem MemberRegistry.Keyed.joined (h : r.Keyed) : Joined nodeId epoch r.records r where
  sound nodeId m hget := ⟨⟨nodeId, hget⟩, h nodeId m hget⟩
  greatest := by
    rintro m ⟨nodeId, hget⟩
    rw [h nodeId m hget]
    exact ⟨m, hget, le_rfl⟩

theorem MemberRegistry.Keyed.get_of_mem (h : r.Keyed) {m : Member} (hm : m ∈ r.records) :
    r.get m.nodeId = some m := by
  obtain ⟨nodeId, hget⟩ := hm
  rw [h nodeId m hget]
  exact hget

theorem MemberRegistry.mem_values {m : Member} : m ∈ r.entries.map Prod.snd ↔ m ∈ r.records := by
  constructor
  · intro hm
    obtain ⟨⟨nodeId, _⟩, hentry, rfl⟩ := mem_map.mp hm
    exact ⟨nodeId, get_eq_some.mpr hentry⟩
  · rintro ⟨nodeId, hget⟩
    exact mem_map.mpr ⟨(nodeId, m), get_eq_some.mp hget, rfl⟩

theorem MemberRegistry.Keyed.nodup_listing (h : r.Keyed) : (r.listing.map Prod.fst).Nodup := by
  have hkeys : r.listing.map Prod.fst = r.keys := by
    rw [listing, map_map]
    refine map_congr_left ?_
    intro e he
    exact h e.1 e.2 (get_eq_some.mpr he)
  rw [hkeys]
  exact nodup_keys r

theorem MemberRegistry.Keyed.get_epochs (h : r.Keyed) (nodeId : String) :
    (r.listing.foldl (fun epochs e => epochs.insert e.1 e.2) (∅ : OrderedMap String Nat)).get nodeId =
      r.epochOf nodeId := by
  apply Option.ext
  intro epoch
  rw [get_foldl_insert h.nodup_listing, h.epochOf_eq]
  simp

theorem MemberRegistry.Keyed.localEpochs_get (h : r.Keyed) (nodeId : String) :
    (GossipService.localEpochs r).get nodeId = r.epochOf nodeId := by
  rw [← h.get_epochs, GossipService.localEpochs, listing, foldl_map, foldl_map]

def MemberRegistry.digest (r : MemberRegistry) : List GossipNodeDigest :=
  (r.entries.map Prod.snd).map fun m => ⟨m.nodeId, m.epoch⟩

theorem MemberRegistry.Keyed.epochsOf_get (h : r.Keyed) (nodeId : String) :
    (GossipService.epochsOf r.digest).get nodeId = r.epochOf nodeId := by
  rw [← h.get_epochs, GossipService.epochsOf, digest, listing, map_map, foldl_map, foldl_map]
  rfl

section Deltas

variable {r r' : MemberRegistry}

theorem mem_deltaMembers (h' : r'.Keyed) {m : Member} :
    m ∈ GossipService.deltaMembers r (GossipService.epochsOf r'.digest) ↔
      m ∈ r.records ∧ ∀ epoch ∈ r'.epochOf m.nodeId, epoch < m.epoch := by
  rw [GossipService.deltaMembers, mem_filter, mem_values, h'.epochsOf_get]
  refine and_congr_right fun _ => ?_
  cases r'.epochOf m.nodeId with
  | none => simp
  | some epoch => simp

theorem mem_wanted (h : r.Keyed) (h' : r'.Keyed) {nodeId : String} :
    nodeId ∈ GossipService.wanted (GossipService.epochsOf r'.digest) (GossipService.localEpochs r) ↔
      ∃ epoch, r'.epochOf nodeId = some epoch ∧ ∀ e ∈ r.epochOf nodeId, e < epoch := by
  rw [GossipService.wanted, mem_map]
  constructor
  · rintro ⟨⟨_, epoch⟩, hmem, rfl⟩
    obtain ⟨hentry, hahead⟩ := mem_filter.mp hmem
    have hget := get_eq_some.mpr hentry
    rw [h'.epochsOf_get] at hget
    refine ⟨epoch, hget, ?_⟩
    rw [h.localEpochs_get] at hahead
    intro e he
    rw [Option.mem_def] at he
    simpa [he] using hahead
  · rintro ⟨epoch, hget, hahead⟩
    rw [← h'.epochsOf_get] at hget
    refine ⟨(nodeId, epoch), mem_filter.mpr ⟨get_eq_some.mp hget, ?_⟩, rfl⟩
    rw [h.localEpochs_get]
    cases hlocal : r.epochOf nodeId with
    | none => rfl
    | some e => simpa using hahead e hlocal

end Deltas

section Merging

variable [Digests] {S : Set Member} {t t' : TopologyManager} {members : List Member}

theorem joined_apply (h : Joined nodeId epoch S t.registry) (m : Member) :
    Joined nodeId epoch (insert m S) (apply m t).2.registry := by
  rcases apply_state m t with ⟨hnew, hstate⟩ | ⟨⟨u, hget, hle⟩, hstate⟩
  · rw [hstate]
    exact h.accept hnew.above
  · rw [hstate]
    exact h.refuse hget hle

theorem joined_collect {flags : List Bool} (h : Joined nodeId epoch S t.registry)
    (hrun : collect members apply t = (.ok flags, t')) :
    Joined nodeId epoch ({m | m ∈ members} ∪ S) t'.registry := by
  induction members generalizing S t flags with
  | nil =>
    cases hrun
    simpa using h
  | cons m members ih =>
    obtain ⟨flag, t₁, hhead, hrun⟩ := of_bind_ok hrun
    obtain ⟨rest, t₂, htail, hrun⟩ := of_bind_ok hrun
    cases hrun
    have happly := joined_apply h m
    rw [hhead] at happly
    rw [union_cons]
    exact ih happly htail

omit [Digests] in
theorem joined_notify {c : Prop} [Decidable c] (hrun : whenever c notify t = (.ok (), t'))
    (h : Joined nodeId epoch S t.registry) : Joined nodeId epoch S t'.registry := by
  rcases of_whenever_ok hrun with ⟨_, hrun⟩ | ⟨_, rfl⟩
  · cases hrun
    exact h
  · exact h

theorem joined_mergeRegistry {n : Nat} (h : Joined nodeId epoch S t.registry)
    (hrun : mergeRegistry members t = (.ok n, t')) : Joined nodeId epoch ({m | m ∈ members} ∪ S) t'.registry := by
  obtain ⟨flags, t₁, hcollect, hrun⟩ := of_bind_ok hrun
  obtain ⟨_, t₂, hnotify, hrun⟩ := of_bind_ok hrun
  cases hrun
  exact joined_notify hnotify (joined_collect h hcollect)

theorem joined_applyMember {m : Member} {flag : Bool} (h : Joined nodeId epoch S t.registry)
    (hrun : applyMember m t = (.ok flag, t')) : Joined nodeId epoch (insert m S) t'.registry := by
  obtain ⟨changed, t₁, happly, hrun⟩ := of_bind_ok hrun
  obtain ⟨_, t₂, hnotify, hrun⟩ := of_bind_ok hrun
  cases hrun
  have hjoined := joined_apply h m
  rw [happly] at hjoined
  exact joined_notify hnotify hjoined

theorem joined_acceptEach {accepted : List Member} {turn ignored : Nat} {result : List Member × Nat}
    (h : Joined nodeId epoch S t.registry)
    (hrun : GossipService.acceptEach (fun _ => []) turn members accepted ignored t = (.ok result, t')) :
    Joined nodeId epoch ({m | m ∈ members} ∪ S) t'.registry := by
  induction members generalizing S t turn accepted ignored with
  | nil =>
    cases hrun
    simpa using h
  | cons m members ih =>
    obtain ⟨_, t₁, hmodify, hrun⟩ := of_bind_ok hrun
    cases hmodify
    obtain ⟨changed, t₂, hhead, hrun⟩ := of_bind_ok hrun
    have hjoined := joined_applyMember h hhead
    rw [union_cons]
    cases changed with
    | true => exact ih hjoined hrun
    | false => exact ih hjoined hrun

theorem joined_accept {s : GossipService} {request : GossipPush} {result : GossipPushAccept × Option GossipRelay}
    (h : Joined nodeId epoch S t.registry) (hrun : s.accept (fun _ => []) request t = (.ok result, t')) :
    Joined nodeId epoch ({m | m ∈ request.members} ∪ S) t'.registry := by
  obtain ⟨outcome, t₁, heach, hrun⟩ := of_bind_ok hrun
  cases hrun
  exact joined_acceptEach h heach

end Merging

section Pages

variable [Digests] {S : Set Member} {s s' : Reconciliation} {peer : GossipService}
  {members : List Member} {wanted : List String}

omit [Digests] in
theorem page_append {start stop : Nat} (hle : start ≤ stop) (hstop : stop ≤ members.length) :
    (members.take stop).drop start ++ members.drop stop = members.drop start := by
  have hlength : start ≤ (members.take stop).length := by
    rw [length_take]
    omega
  rw [← drop_append_of_le_length hlength, take_append_drop]

theorem mergeDeltas_pages {fuel start : Nat} {collected result : List String}
    (hfuel : members.length - start < fuel) (h : Joined nodeId epoch S s.initiator.registry)
    (hrun : Gossiper.mergeDeltas (peer.pages members wanted fuel start) collected s = (.ok result, s')) :
    Joined nodeId epoch ({m | m ∈ members.drop start} ∪ S) s'.initiator.registry ∧
      s'.responder = s.responder ∧ ∀ nodeId, nodeId ∈ result ↔ nodeId ∈ collected ∨ nodeId ∈ wanted := by
  induction fuel generalizing start S s collected with
  | zero => omega
  | succ fuel ih =>
    have hpositive := peer.deltaSize_pos
    have hpage (stop : Nat) (hle : start ≤ stop) (hstop : stop ≤ members.length) :
        {m | m ∈ members.drop stop} ∪ ({m | m ∈ (members.take stop).drop start} ∪ S) =
          {m | m ∈ members.drop start} ∪ S := by
      rw [← page_append hle hstop]
      ext m
      simp only [Set.mem_union, Set.mem_ofPred_eq, mem_append]
      tauto
    rw [GossipService.pages] at hrun
    obtain ⟨n, s₁, hmerge, hrun⟩ := of_bind_ok hrun
    obtain ⟨t, hregistry, rfl⟩ := of_zoom_ok hmerge
    have hjoined := joined_mergeRegistry h hregistry
    by_cases hmore : min (start + peer.deltaSize) members.length < members.length
    · rw [if_pos (by simpa using hmore), if_pos hmore] at hrun
      obtain ⟨hall, hresponder, hresult⟩ := ih (by omega) hjoined hrun
      rw [hpage _ (by omega) (by omega)] at hall
      refine ⟨hall, hresponder, ?_⟩
      intro nodeId
      rw [hresult nodeId, mem_union_iff]
      tauto
    · rw [if_neg (by simpa using hmore)] at hrun
      cases hrun
      have hstop : min (start + peer.deltaSize) members.length = members.length := by omega
      rw [hstop, take_length] at hjoined
      exact ⟨hjoined, rfl, fun nodeId => mem_union_iff⟩

end Pages

section Exchange

variable [Digests] {s s' : Reconciliation} {peer : GossipService} {g : Gossiper} {S : Set Member}

theorem satisfyWanted_joined {wanted : List String} (h : Joined nodeId epoch S s.responder.registry)
    (hrun : g.satisfyWanted peer wanted s = (.ok (), s')) : s'.initiator = s.initiator ∧ Joined nodeId epoch
      ({m | m ∈ s.initiator.registry.records ∧ m.nodeId ∈ wanted} ∪ S) s'.responder.registry := by
  obtain ⟨_, s₁, hget, hrun⟩ := of_bind_ok hrun
  cases hget
  dsimp only at hrun
  have hsent : {m | m ∈ (s.initiator.registry.entries.map Prod.snd).filter fun m => m.nodeId ∈ wanted} =
      {m | m ∈ s.initiator.registry.records ∧ m.nodeId ∈ wanted} := by
    ext m
    simp [← mem_values]
  rw [← hsent]
  rcases of_whenever_ok hrun with ⟨_, hrun⟩ | ⟨hnone, rfl⟩
  · obtain ⟨request, s₂, hrequest, hrun⟩ := of_bind_ok hrun
    obtain ⟨_, s₃, hpush, hrun⟩ := of_bind_ok hrun
    obtain ⟨t, haccept, rfl⟩ := of_zoom_ok hpush
    cases hrun
    have hdocument := congrArg Prod.fst hrequest
    simp only [lift, GossipPush.fromDocument, bind_eq_ok, pure_eq_ok] at hdocument
    obtain ⟨_, _, rfl⟩ := hdocument
    cases congrArg Prod.snd hrequest
    exact ⟨rfl, joined_accept h haccept⟩
  · rw [not_not.mp hnone]
    exact ⟨rfl, by simpa using h⟩

omit [Digests] in
theorem fromDocument_digest {data request : GossipDigest} (h : data.fromDocument = .ok request) :
    request = data := by
  simp only [GossipDigest.fromDocument, bind_eq_ok, pure_eq_ok] at h
  obtain ⟨digest, hdigest, _, _, rfl⟩ := h
  have hsame : digest = data.digest.map id := by
    refine mapM_ok_eq_map ?_ hdigest
    intro item _ item' hitem
    simp only [bind_eq_ok, pure_eq_ok] at hitem
    obtain ⟨_, _, rfl⟩ := hitem
    rfl
  rw [hsame, map_id]

theorem aeDigestDelta_run (hrun : g.aeDigestDelta peer s = (.ok (), s')) :
    ∃ wanted s₁, Gossiper.mergeDeltas (peer.pages (GossipService.deltaMembers s.responder.registry
          (GossipService.epochsOf s.initiator.registry.digest))
        (GossipService.wanted (GossipService.epochsOf s.initiator.registry.digest)
          (GossipService.localEpochs s.responder.registry)) ((GossipService.deltaMembers s.responder.registry
          (GossipService.epochsOf s.initiator.registry.digest)).length + 1) 0) [] s = (.ok wanted, s₁) ∧
      whenever (wanted ≠ []) (g.satisfyWanted peer wanted) s₁ = (.ok (), s') := by
  obtain ⟨digest, s₁, hbuild, hrun⟩ := of_bind_ok hrun
  obtain ⟨t, hdigest, rfl⟩ := of_zoom_ok hbuild
  cases hdigest
  obtain ⟨request, s₂, hrequest, hrun⟩ := of_bind_ok hrun
  cases congrArg Prod.snd hrequest
  cases fromDocument_digest (congrArg Prod.fst hrequest)
  obtain ⟨_, s₃, hget, hrun⟩ := of_bind_ok hrun
  cases hget
  obtain ⟨wanted, s₁, hmerge, hrun⟩ := of_bind_ok hrun
  exact ⟨wanted, s₁, hmerge, hrun⟩

theorem pushed_joined {wanted : List String} (h : Joined nodeId epoch S s.responder.registry)
    (hrun : whenever (wanted ≠ []) (g.satisfyWanted peer wanted) s = (.ok (), s')) :
    s'.initiator = s.initiator ∧ Joined nodeId epoch
      ({m | m ∈ s.initiator.registry.records ∧ m.nodeId ∈ wanted} ∪ S) s'.responder.registry := by
  rcases of_whenever_ok hrun with ⟨_, hrun⟩ | ⟨hnone, rfl⟩
  · exact satisfyWanted_joined h hrun
  · rw [not_not.mp hnone]
    exact ⟨rfl, by simpa using h⟩

omit [Digests] in
theorem MemberRegistry.Keyed.above (h : r.Keyed) {nodeId : String} {epoch : Nat}
    (hbehind : ¬ ∀ e ∈ r.epochOf nodeId, e < epoch) : ∃ u ∈ r.records, u.nodeId = nodeId ∧ epoch ≤ u.epoch := by
  push Not at hbehind
  obtain ⟨e, hepoch, hle⟩ := hbehind
  obtain ⟨u, hget, rfl⟩ := Option.map_eq_some_iff.mp hepoch
  exact ⟨u, ⟨nodeId, hget⟩, h nodeId u hget, hle⟩

omit [Digests] in
theorem below_of_above {u v : Member} (h : Joined nodeId epoch S r) (hu : u ∈ S)
    (hnode : u.nodeId = v.nodeId) (hle : v.epoch ≤ u.epoch) : ∃ w, r.get v.nodeId = some w ∧ v.epoch ≤ w.epoch := by
  obtain ⟨w, hget, hrank⟩ := h.greatest u hu
  rw [hnode] at hget
  exact ⟨w, hget, hle.trans hrank⟩

theorem aeDigestDelta_joined (hkeyed : s.initiator.registry.Keyed) (hkeyed' : s.responder.registry.Keyed)
    (hrun : g.aeDigestDelta peer s = (.ok (), s')) :
    Joined nodeId epoch (s.initiator.registry.records ∪ s.responder.registry.records) s'.initiator.registry ∧
    Joined nodeId epoch (s.initiator.registry.records ∪ s.responder.registry.records) s'.responder.registry := by
  obtain ⟨wanted, s₁, hmerge, hpush⟩ := aeDigestDelta_run hrun
  obtain ⟨hmerged, hresponder, hwanted⟩ := mergeDeltas_pages (Nat.lt_succ_self _) hkeyed.joined hmerge
  rw [drop_zero] at hmerged
  have hstart : Joined nodeId epoch s.responder.registry.records
      s₁.responder.registry := by
    rw [hresponder]
    exact hkeyed'.joined
  obtain ⟨hinitiator, hpushed⟩ := pushed_joined hstart hpush
  have hleft : Joined nodeId epoch
      (s.initiator.registry.records ∪ s.responder.registry.records) s₁.initiator.registry := by
    refine hmerged.extend ?_ ?_
    · rintro v (hv | hv)
      · exact .inr ((mem_deltaMembers hkeyed).mp hv).1
      · exact .inl hv
    · rintro v (hv | hv)
      · exact hmerged.greatest v (.inr hv)
      · by_cases hahead : ∀ e ∈ s.initiator.registry.epochOf v.nodeId, e < v.epoch
        · exact hmerged.greatest v (.inl ((mem_deltaMembers hkeyed).mpr ⟨hv, hahead⟩))
        · obtain ⟨u, hu, hnode, hle⟩ := hkeyed.above hahead
          exact below_of_above hmerged (.inr hu) hnode hle
  refine ⟨hinitiator ▸ hleft, hpushed.extend ?_ ?_⟩
  · rintro v (⟨⟨nodeId, hget⟩, _⟩ | hv)
    · exact (hleft.sound nodeId v hget).1
    · exact .inr hv
  · rintro v (hv | hv)
    · by_cases hahead : ∀ e ∈ s.responder.registry.epochOf v.nodeId, e < v.epoch
      · have hin : v.nodeId ∈ wanted := by
          refine (hwanted v.nodeId).mpr (.inr ((mem_wanted hkeyed' hkeyed).mpr ⟨v.epoch, ?_, hahead⟩))
          rw [epochOf, hkeyed.get_of_mem hv]
          rfl
        obtain ⟨u, hget, hle⟩ := hleft.greatest v (.inl hv)
        have hnode := (hleft.sound _ u hget).2
        exact below_of_above hpushed (.inl ⟨⟨_, hget⟩, hnode.symm ▸ hin⟩) hnode hle
      · obtain ⟨u, hu, hnode, hle⟩ := hkeyed'.above hahead
        exact below_of_above hpushed (.inr hu) hnode hle
    · exact hpushed.greatest v (.inr hv)

end Exchange

def newest : Option Member → Option Member → Option Member
  | some u, some v => if u.epoch < v.epoch then some v else some u
  | some u, none => some u
  | none, found => found

theorem joined_newest {r' merged : MemberRegistry} (hkeyed : r.Keyed) (hkeyed' : r'.Keyed)
    (hdistinct : ∀ u ∈ r.records ∪ r'.records, ∀ v ∈ r.records ∪ r'.records,
      u.nodeId = v.nodeId → u.epoch = v.epoch → u = v)
    (h : Joined nodeId epoch (r.records ∪ r'.records) merged) (nodeId : String) :
    merged.get nodeId = newest (r.get nodeId) (r'.get nodeId) := by
  have hfound (u : Member) (hu : u ∈ r.records ∪ r'.records) (hnode : u.nodeId = nodeId)
      (hleft : ∀ v ∈ r.get nodeId, v.epoch ≤ u.epoch)
      (hright : ∀ v ∈ r'.get nodeId, v.epoch ≤ u.epoch) : merged.get nodeId = some u := by
    rw [← hnode]
    refine h.get_greatest hdistinct hu ?_
    rintro v (hv | hv) hsame
    · exact hleft v (hnode ▸ hsame ▸ hkeyed.get_of_mem hv)
    · exact hright v (hnode ▸ hsame ▸ hkeyed'.get_of_mem hv)
  cases hr : r.get nodeId with
  | none =>
    cases hr' : r'.get nodeId with
    | none =>
      cases hmerged : merged.get nodeId with
      | none => rfl
      | some v =>
        obtain ⟨hv | hv, hnode⟩ := h.sound nodeId v hmerged
        · exact absurd (hnode ▸ hkeyed.get_of_mem hv) (by rw [hr]; nofun)
        · exact absurd (hnode ▸ hkeyed'.get_of_mem hv) (by rw [hr']; nofun)
    | some v =>
      refine hfound v (.inr ⟨nodeId, hr'⟩) (hkeyed' nodeId v hr') ?_ ?_
      · simp [hr]
      · simp [hr']
  | some u =>
    cases hr' : r'.get nodeId with
    | none =>
      refine hfound u (.inl ⟨nodeId, hr⟩) (hkeyed nodeId u hr) ?_ ?_
      · simp [hr]
      · simp [hr']
    | some v =>
      rw [newest]
      split
      · rename_i hlt
        refine hfound v (.inr ⟨nodeId, hr'⟩) (hkeyed' nodeId v hr') ?_ ?_
        · simpa [hr] using hlt.le
        · simp [hr']
      · rename_i hge
        refine hfound u (.inl ⟨nodeId, hr⟩) (hkeyed nodeId u hr) ?_ ?_
        · simp [hr]
        · simpa [hr'] using hge

theorem reconciliation_converges [Digests] {g : Gossiper} {peer : GossipService}
    {s s' : Reconciliation} (hkeyed : s.initiator.registry.Keyed) (hkeyed' : s.responder.registry.Keyed)
    (hdistinct : ∀ u ∈ s.initiator.registry.records ∪ s.responder.registry.records,
      ∀ v ∈ s.initiator.registry.records ∪ s.responder.registry.records,
        u.nodeId = v.nodeId → u.epoch = v.epoch → u = v) (hrun : g.aeDigestDelta peer s = (.ok (), s')) :
    s'.initiator.registry = s'.responder.registry ∧ ∀ nodeId, s'.initiator.registry.get nodeId =
      newest (s.initiator.registry.get nodeId) (s.responder.registry.get nodeId) := by
  obtain ⟨hinitiator, hresponder⟩ := aeDigestDelta_joined hkeyed hkeyed' hrun
  exact ⟨hinitiator.unique hresponder hdistinct, joined_newest hkeyed hkeyed' hdistinct hinitiator⟩

namespace Sample

def paging : GossipService := ⟨"s", true, 1, Nat.one_pos⟩

def fresh (nodeId : String) : Member := ⟨nodeId, nodeId, 2, .idle, []⟩

def stale (nodeId : String) : Member := ⟨nodeId, nodeId, 1, .idle, []⟩

def parted : Reconciliation where
  initiator := TopologyCall.runAll [.mergeRegistry [fresh "a", stale "b", fresh "c"]]
  responder := TopologyCall.runAll [.mergeRegistry [stale "a", fresh "b", fresh "d", fresh "e"]]

theorem parted_exchange : ∃ s, (⟨"p"⟩ : Gossiper).aeDigestDelta paging parted = (.ok (), s) ∧
      s.initiator.registry = s.responder.registry ∧ s.initiator.registry.get "b" = some (fresh "b") ∧
      (paging.delta parted.responder.registry ⟨"p", false, "", parted.initiator.registry.digest⟩).length = 3 := by
  have hrun : ((⟨"p"⟩ : Gossiper).aeDigestDelta paging parted).1 = .ok () := by decide +kernel
  have hrecords (r : MemberRegistry) (m : Member) (hm : m ∈ r.records) :
      m ∈ r.entries.map Prod.snd := mem_values.mpr hm
  have hcheck : ∀ u ∈ parted.initiator.registry.entries.map Prod.snd ++
      parted.responder.registry.entries.map Prod.snd, ∀ v ∈
        parted.initiator.registry.entries.map Prod.snd ++
          parted.responder.registry.entries.map Prod.snd,
      u.nodeId = v.nodeId → u.epoch = v.epoch → u = v := by
    decide +kernel
  have hdistinct : ∀ u ∈ parted.initiator.registry.records ∪ parted.responder.registry.records,
      ∀ v ∈ parted.initiator.registry.records ∪ parted.responder.registry.records,
        u.nodeId = v.nodeId → u.epoch = v.epoch → u = v := by
    intro u hu v hv
    refine hcheck u ?_ v ?_
    · exact mem_append.mpr (hu.imp (hrecords _ u) (hrecords _ u))
    · exact mem_append.mpr (hv.imp (hrecords _ v) (hrecords _ v))
  obtain ⟨hequal, hnewest⟩ := reconciliation_converges (keyed_runAll _) (keyed_runAll _) hdistinct
    (Prod.ext hrun rfl)
  exact ⟨_, Prod.ext hrun rfl, hequal, (hnewest "b").trans (by decide +kernel), by decide +kernel⟩

end Sample

end Tourillon
