import Tourillon.AntiEntropy.ResponderSpec
import Tourillon.Library.Framing

namespace Tourillon

open Endian Exceptional Prog Framing List

def nodePart (node : String) : Bytes := toBE 2 (encodeUtf8 node).length ++ encodeUtf8 node

def pidPart (e : Nat × List String) : Bytes := toBE 4 e.1 ++ (e.2.flatMap nodePart ++ [255, 255])

def ShortId (node : String) : Prop := (encodeUtf8 node).length < 65535

instance (node : String) : Decidable (ShortId node) := inferInstanceAs (Decidable (_ < _))

structure ShortEntry (e : Nat × List String) : Prop where
  pid : e.1 < 256 ^ 4
  nodes : ∀ node ∈ e.2, ShortId node

theorem nodePart_selfDelimiting : SelfDelimiting ShortId nodePart where
  peel := by
    intro node node' x y h h' heq
    simp only [nodePart, append_assoc] at heq
    obtain ⟨hlength, hrest⟩ := append_inj heq (by simp)
    have hsize : (encodeUtf8 node).length = (encodeUtf8 node').length :=
      toBE_inj (lt_trans h (by decide)) (lt_trans h' (by decide)) hlength
    obtain ⟨hnode, htail⟩ := append_inj hrest hsize
    exact ⟨encodeUtf8_inj hnode, htail⟩
  nonempty node := by
    intro hnil
    exact toBE_ne_nil (by decide) (append_eq_nil_iff.mp hnil).1

theorem nodePart_ne_stop (node : String) (x y : Bytes) (h : ShortId node) :
    nodePart node ++ x ≠ [255, 255] ++ y := by
  intro heq
  rw [nodePart, append_assoc] at heq
  obtain ⟨hlength, _⟩ := append_inj heq (by simp)
  have hsize : (encodeUtf8 node).length = 65535 := toBE_inj (lt_trans h (by decide)) (by decide) hlength
  exact absurd h (by rw [ShortId, hsize]; decide)

theorem pidPart_selfDelimiting : SelfDelimiting ShortEntry pidPart where
  peel := by
    rintro ⟨pid, nodes⟩ ⟨pid', nodes'⟩ x y h h' heq
    simp only [pidPart, append_assoc] at heq
    obtain ⟨hpid, hrest⟩ := append_inj heq (by simp)
    obtain ⟨hnodes, htail⟩ := nodePart_selfDelimiting.terminated_inj nodePart_ne_stop h.nodes h'.nodes hrest
    have hid : pid = pid' := toBE_inj h.pid h'.pid hpid
    exact ⟨Prod.ext hid hnodes, htail⟩
  nonempty e := by
    intro hnil
    exact toBE_ne_nil (by decide) (append_eq_nil_iff.mp hnil).1

namespace ReplicaView

variable {v : ReplicaView} {pids : List Nat} {v' : ReplicaView} {hash : BitVec 128}

section

variable (v : ReplicaView) (pids : List Nat)

def listed : List (Nat × List String) := pids.map fun pid => (pid, v.replicasOf pid)

def hashed : Bytes := (v.listed pids).flatMap pidPart

def ShortIds : Prop := ∀ pid ∈ pids, ∀ node ∈ v.replicasOf pid, ShortId node

end

instance (v : ReplicaView) (pids : List Nat) : Decidable (v.ShortIds pids) :=
  inferInstanceAs (Decidable (∀ pid ∈ pids, ∀ node ∈ v.replicasOf pid, ShortId node))

theorem hashPart_ok {pid : Nat} {part : Bytes} (h : v.hashPart pid = .ok part) :
    (pid < 256 ^ 4 ∧ pid < v.replicas.length) ∧ part = pidPart (pid, v.replicasOf pid) := by
  simp only [hashPart, bind_eq_ok, intToBytes_eq_ok] at h
  obtain ⟨_, ⟨hpid, rfl⟩, h⟩ := h
  split at h
  · cases h
  · rename_i nodes hnodes
    simp only [bind_eq_ok, pure_eq_ok] at h
    obtain ⟨parts, hparts, rfl⟩ := h
    have hmap : parts = nodes.map nodePart := by
      refine mapM_ok_eq_map ?_ hparts
      intro node _ b hb
      simp only [bind_eq_ok, pure_eq_ok] at hb
      obtain ⟨_, hlength, rfl⟩ := hb
      rw [(intToBytes_eq_ok.mp hlength).2]
      rfl
    have hreplicas : v.replicasOf pid = nodes := by
      rw [replicasOf, List.getD_eq_getElem?_getD, hnodes, Option.getD_some]
    refine ⟨⟨hpid, (List.getElem?_eq_some_iff.mp hnodes).1⟩, ?_⟩
    rw [hmap, hreplicas, pidPart, List.flatMap_def]

theorem listed_short (hshort : v.ShortIds pids) (hpids : ∀ pid ∈ pids, pid < 256 ^ 4) :
    ∀ e ∈ v.listed pids, ShortEntry e := by
  intro e he
  obtain ⟨pid, hpid, rfl⟩ := mem_map.mp he
  exact ⟨hpids pid hpid, hshort pid hpid⟩

theorem replicas_of_listed (hcover : ∀ pid ∈ pids, pid < v.replicas.length)
    (hcover' : ∀ pid ∈ pids, pid < v'.replicas.length) (h : v.listed pids = v'.listed pids) :
    ∀ pid ∈ pids, v.replicas[pid]? = v'.replicas[pid]? := by
  intro pid hpid
  have hsame : v.replicasOf pid = v'.replicasOf pid := (Prod.mk.inj (map_inj_left.mp h pid hpid)).2
  simp only [replicasOf, getD_eq_getElem?_getD, getElem?_eq_getElem (hcover pid hpid),
    getElem?_eq_getElem (hcover' pid hpid), Option.getD_some] at hsame
  rw [getElem?_eq_getElem (hcover pid hpid), getElem?_eq_getElem (hcover' pid hpid), hsame]

variable [Blake2b]

theorem viewHash_ok (h : v.viewHash pids = .ok hash) : (∀ pid ∈ pids, pid < 256 ^ 4 ∧ pid < v.replicas.length) ∧
      hash = Blake2b.digest16 (v.hashed pids) := by
  simp only [viewHash, bind_eq_ok, pure_eq_ok] at h
  obtain ⟨parts, hparts, rfl⟩ := h
  have hmap : parts = pids.map fun pid => pidPart (pid, v.replicasOf pid) :=
    mapM_ok_eq_map (fun pid _ part hpart => (hashPart_ok hpart).2) hparts
  refine ⟨?_, ?_⟩
  · intro pid hpid
    obtain ⟨part, _, hpart⟩ := exists_of_mem_mapM hparts hpid
    exact (hashPart_ok hpart).1
  · rw [hmap, hashed, listed, flatMap_map, flatMap_def]

def Collides (v v' : ReplicaView) (pids pids' : List Nat) : Prop :=
  v.hashed pids ≠ v'.hashed pids' ∧
    Blake2b.digest16 (v.hashed pids) = Blake2b.digest16 (v'.hashed pids')

theorem agree_of_viewHash {pids' : List Nat} (hshort : v.ShortIds pids) (hshort' : v'.ShortIds pids')
    (hapart : ¬ Collides v v' pids pids') (h : v.viewHash pids = .ok hash) (h' : v'.viewHash pids' = .ok hash) :
    pids = pids' ∧ ∀ pid ∈ pids, v.replicas[pid]? = v'.replicas[pid]? := by
  obtain ⟨hpids, rfl⟩ := viewHash_ok h
  obtain ⟨hpids', hdigest⟩ := viewHash_ok h'
  have hbytes : v.hashed pids = v'.hashed pids' := by
    by_contra hne
    exact hapart ⟨hne, hdigest⟩
  have hlisted : v.listed pids = v'.listed pids' :=
    pidPart_selfDelimiting.flatMap_inj (listed_short hshort fun pid hpid => (hpids pid hpid).1)
      (listed_short hshort' fun pid hpid => (hpids' pid hpid).1) hbytes
  have hsame : pids = pids' := by
    have hfirst := congrArg (map Prod.fst) hlisted
    simpa [listed, Function.comp_def] using hfirst
  subst hsame
  exact ⟨rfl, replicas_of_listed (fun pid hpid => (hpids pid hpid).2) (fun pid hpid => (hpids' pid hpid).2) hlisted⟩

end ReplicaView

inductive AntiEntropyRequest where
  | roots (scope : Scope) (cells : List Bytes)
  | buckets (scope : Scope) (after : Option Nat) (limit : Nat)
  | range (scope : Scope) (start stop : Bytes)
  | keys (scope : Scope) (start stop : Bytes) (limit : Nat)
  | fetch (scope : Scope) (raw : List Bytes) (maxBytes : Nat)
  | push (scope : Scope) (records : List Record)
  | serve (scope : Scope) (work : Ae Unit)

namespace AntiEntropyRequest

def scope : AntiEntropyRequest → Scope
  | roots scope _ => scope
  | buckets scope _ _ => scope
  | range scope _ _ => scope
  | keys scope _ _ _ => scope
  | fetch scope _ _ => scope
  | push scope _ => scope
  | serve scope _ => scope

def write : AntiEntropyRequest → Bool
  | push _ _ => true
  | _ => false

def records : AntiEntropyRequest → List Record
  | push _ records => records
  | _ => []

def discard {α : Type} (x : Ae α) : Ae Unit := x >>= fun _ => pure ()

theorem write_of_mem_records (request : AntiEntropyRequest) {r : Record} (h : r ∈ request.records) :
    request.write = true := by
  cases request with
  | push scope records => rfl
  | _ => cases h

end AntiEntropyRequest

namespace Responder

def Gated (Q : World → Prop) {α : Type} (x : Ae α) : Prop := ∀ w, Q w ∨ ∃ e, x w = (.error e, w)

variable {α β : Type} {Q : World → Prop}

theorem Gated.validated {r : Except PyError α} {f : α → Ae β} (hf : ∀ a, r = .ok a → Gated Q (f a)) :
    Gated Q (Cluster.python r >>= f) := by
  intro w
  cases r with
  | ok a => exact hf a rfl w
  | error e => exact .inr ⟨.python e, rfl⟩

theorem Gated.checked {p : Prop} [Decidable p] {e : AeError} {f : Unit → Ae β}
    (hf : ¬ p → Gated Q (f ())) : Gated Q (check p e >>= f) := by
  intro w
  by_cases hp : p
  · refine .inr ⟨e, bind_error ?_⟩
    rw [check, if_pos hp]
    rfl
  · have hrun : (check p e : Ae Unit) w = (.ok (), w) := by
      rw [check, if_neg hp]
      rfl
    rw [bind_ok hrun]
    exact hf hp w

theorem Gated.discard {x : Ae α} (hx : Gated Q x) : Gated Q (AntiEntropyRequest.discard x) := by
  intro w
  rcases hx w with hadmitted | ⟨e, herror⟩
  · exact .inl hadmitted
  · exact .inr ⟨e, bind_error herror⟩

end Responder

section Admission

variable [Blake2b]

def AntiEntropyRequest.handle (c : Cluster) (node : String) : AntiEntropyRequest → Ae Unit
  | roots scope cells => discard (Responder.roots c node scope cells)
  | buckets scope after limit => discard (Responder.buckets c node scope after limit)
  | range scope start stop => discard (Responder.range c node scope start stop)
  | keys scope start stop limit => discard (Responder.keys c node scope start stop limit)
  | fetch scope raw maxBytes => discard (Responder.fetch c node scope raw maxBytes)
  | push scope records => discard (Responder.pushResult c node scope records)
  | serve scope work => do
    Responder.admitScope c node scope false
    work

namespace Responder

variable {c : Cluster} {node : String} {scope : Scope} {write : Bool}

theorem admissible_ok {sh : Shared} (h : admissible c node sh scope write = .ok ()) :
    ∃ view, ((sh.nodes node).running = true ∧ (sh.nodes node).tracker.view = some view) ∧
      view.viewHash scope.pids = .ok scope.view ∧
      (write = true → ∀ pid ∈ scope.pids, view.isReplica pid node = true) := by
  unfold admissible at h
  split at h
  · cases h
  · split at h
    · rename_i view hrunning hview
      split at h
      · cases h
      · split at h
        · cases h
        · rename_i hash hhash
          split at h
          · cases h
          · rename_i hsame
            split at h
            · cases h
            · rename_i hwrite
              rw [not_not] at hsame
              rw [hsame] at hhash
              refine ⟨view, ⟨hrunning, hview⟩, hhash, ?_⟩
              intro hw pid hpid
              by_contra hnot
              exact hwrite ⟨hw, fun hall => hnot (all_eq_true.mp hall pid hpid)⟩
    · cases h

theorem Gated.entry {α : Type} {Q : World → Prop}
    (h : ∀ w, admissible c node w.shared scope write = .ok () → Q w) (f : Unit → Ae α) :
    Gated Q (admitScope c node scope write >>= f) := by
  intro w
  cases hadmitted : admissible c node w.shared scope write with
  | ok _ => exact .inl (h w hadmitted)
  | error e =>
    refine .inr ⟨e, bind_error ?_⟩
    change (admissible c node w.shared scope write, w) = _
    rw [hadmitted]

def Admitted (c : Cluster) (node : String) (request : AntiEntropyRequest) (w : World) : Prop :=
  admissible c node w.shared request.scope request.write = .ok () ∧
    ∀ r ∈ request.records, r.key.pid ∈ request.scope.pids

theorem gated_handle (request : AntiEntropyRequest) : Gated (Admitted c node request) (request.handle c node) := by
  cases request with
  | roots scope cells =>
    exact .discard (.validated fun _ _ => .checked fun _ => .entry (fun _ h => ⟨h, nofun⟩) _)
  | buckets scope after limit =>
    exact .discard (.validated fun _ _ => .validated fun _ _ => .validated fun _ _ =>
      .entry (fun _ h => ⟨h, nofun⟩) _)
  | range scope start stop =>
    exact .discard (.validated fun _ _ => .validated fun _ _ => .validated fun _ _ =>
      .entry (fun _ h => ⟨h, nofun⟩) _)
  | keys scope start stop limit =>
    exact .discard (.validated fun _ _ => .validated fun _ _ => .validated fun _ _ =>
      .validated fun _ _ => .entry (fun _ h => ⟨h, nofun⟩) _)
  | fetch scope raw maxBytes =>
    exact .discard (.validated fun _ _ => .validated fun _ _ => .validated fun _ _ =>
      .checked fun _ => .checked fun _ => .checked fun _ => .entry (fun _ h => ⟨h, nofun⟩) _)
  | push scope records =>
    refine .discard (.validated fun _ _ => .validated fun pid hpid => .checked fun _ =>
      .checked fun hwithin => .entry (fun _ h => ⟨h, ?_⟩) _)
    intro r hr
    rw [not_or, not_not, all_eq_true] at hwithin
    have hsame : r.key.pid = pid := of_decide_eq_true (hwithin.2 r hr)
    change r.key.pid ∈ scope.pids
    rw [Scope.pid_eq_ok hpid, hsame]
    exact mem_singleton_self pid
  | serve scope work => exact .entry (fun _ h => ⟨h, nofun⟩) _

end Responder

structure Agreed (request : AntiEntropyRequest) (initiator responder : ReplicaView) (node : String) : Prop where
  replicas : initiator.ShortIds request.scope.pids → responder.ShortIds request.scope.pids →
    ¬ ReplicaView.Collides initiator responder request.scope.pids request.scope.pids →
    ∀ pid ∈ request.scope.pids, initiator.replicas[pid]? = responder.replicas[pid]?
  write : request.write = true → ∀ pid ∈ request.scope.pids, responder.isReplica pid node = true
  records : ∀ r ∈ request.records, responder.isReplica r.key.pid node = true

theorem view_hash_pins_replicas :
    (∀ (v v' : ReplicaView) (pids pids' : List Nat) (hash : BitVec 128), v.ShortIds pids →
      v'.ShortIds pids' → ¬ ReplicaView.Collides v v' pids pids' → v.viewHash pids = .ok hash →
      v'.viewHash pids' = .ok hash → pids = pids' ∧ ∀ pid ∈ pids, v.replicas[pid]? = v'.replicas[pid]?) ∧
    ∀ (c : Cluster) (node : String) (request : AntiEntropyRequest) (initiator : ReplicaView) (w : World),
      initiator.viewHash request.scope.pids = .ok request.scope.view →
      (∃ e, request.handle c node w = (.error e, w)) ∨
      ∃ responder, (w.shared.nodes node).tracker.view = some responder ∧
        Agreed request initiator responder node := by
  refine ⟨?_, ?_⟩
  · intro v v' pids pids' hash hshort hshort' hapart h h'
    exact ReplicaView.agree_of_viewHash hshort hshort' hapart h h'
  · intro c node request initiator w hinitiator
    rcases Responder.gated_handle request w with hadmitted | hrefused
    · obtain ⟨responder, ⟨_, hview⟩, hhash, hwrite⟩ := Responder.admissible_ok hadmitted.1
      refine .inr ⟨responder, hview, ?_, hwrite, ?_⟩
      · intro hshort hshort' hapart
        exact (ReplicaView.agree_of_viewHash hshort hshort' hapart hinitiator hhash).2
      · intro r hr
        exact hwrite (request.write_of_mem_records hr) r.key.pid (hadmitted.2 r hr)
    · exact .inl hrefused

end Admission

namespace Sample

def pairedView (nodeId last : String) : ReplicaView := ⟨nodeId, "", [["a", "b"], [last]], [], [], true⟩

theorem paired_views_agree : (pairedView "a" "c").replicas[0]? = (pairedView "b" "d").replicas[0]? ∧
      (pairedView "a" "c").replicas ≠ (pairedView "b" "d").replicas := by
  have hapart : ¬ (pairedView "a" "c").Collides (pairedView "b" "d") [0] [0] := by
    rintro ⟨hne, _⟩
    exact hne (by decide +kernel)
  have hpinned := view_hash_pins_replicas.1 (pairedView "a" "c") (pairedView "b" "d") [0] [0] 0
    (by decide +kernel) (by decide +kernel) hapart (by decide +kernel) (by decide +kernel)
  exact ⟨hpinned.2 0 (by decide), by decide⟩

end Sample

end Tourillon
