import Tourillon.Schema.Codec
import Tourillon.Library.Exceptional
import Mathlib.Data.List.Sort
import Mathlib.Data.List.Rotate

namespace Tourillon

open Endian Exceptional List

inductive MemberPhase where
  | idle
  | joining
  | ready
  | paused
  | draining
  | failed
  deriving DecidableEq, Repr

structure VNode where
  token : Int
  nodeId : String
  deriving DecidableEq, Repr

def hexDigit (c : Char) : Option Nat :=
  if '0' ≤ c ∧ c ≤ '9' then some (c.toNat - '0'.toNat)
  else if 'a' ≤ c ∧ c ≤ 'f' then some (c.toNat - 'a'.toNat + 10)
  else if 'A' ≤ c ∧ c ≤ 'F' then some (c.toNat - 'A'.toNat + 10)
  else none

def isSpace (c : Char) : Bool := c.toNat ∈ [9, 10, 11, 12, 13, 32]

def strip (cs : List Char) : List Char := ((cs.dropWhile isSpace).reverse.dropWhile isSpace).reverse

def groupedDigits : List Char → Option (List Nat)
  | [] => none
  | [c] => (hexDigit c).map fun d => [d]
  | c :: '_' :: rest => do
    let d ← hexDigit c
    let ds ← groupedDigits rest
    return d :: ds
  | c :: rest => do
    let d ← hexDigit c
    let ds ← groupedDigits rest
    return d :: ds

def dropSign : List Char → Bool × List Char
  | '-' :: cs => (true, cs)
  | '+' :: cs => (false, cs)
  | cs => (false, cs)

def dropBase : List Char → List Char
  | '0' :: 'x' :: '_' :: cs => cs
  | '0' :: 'X' :: '_' :: cs => cs
  | '0' :: 'x' :: cs => cs
  | '0' :: 'X' :: cs => cs
  | cs => cs

def unicodeSpaces : List Nat :=
  [0x85, 0xa0, 0x1680, 0x2000, 0x2001, 0x2002, 0x2003, 0x2004, 0x2005, 0x2006, 0x2007, 0x2008, 0x2009,
    0x200a, 0x2028, 0x2029, 0x202f, 0x205f, 0x3000]

def unicodeZeros : List Nat :=
  [0x660, 0x6f0, 0x7c0, 0x966, 0x9e6, 0xa66, 0xae6, 0xb66, 0xbe6, 0xc66, 0xce6, 0xd66, 0xde6, 0xe50,
    0xed0, 0xf20, 0x1040, 0x1090, 0x17e0, 0x1810, 0x1946, 0x19d0, 0x1a80, 0x1a90, 0x1b50, 0x1bb0, 0x1c40,
    0x1c50, 0xa620, 0xa8d0, 0xa900, 0xa9d0, 0xa9f0, 0xaa50, 0xabf0, 0xff10, 0x104a0, 0x10d30, 0x10d40,
    0x11066, 0x110f0, 0x11136, 0x111d0, 0x112f0, 0x11450, 0x114d0, 0x11650, 0x116c0, 0x116d0, 0x116da,
    0x11730, 0x118e0, 0x11950, 0x11bf0, 0x11c50, 0x11d50, 0x11da0, 0x11f50, 0x16130, 0x16a60, 0x16ac0,
    0x16b50, 0x16d70, 0x1ccf0, 0x1d7ce, 0x1d7d8, 0x1d7e2, 0x1d7ec, 0x1d7f6, 0x1e140, 0x1e2f0, 0x1e4f0,
    0x1e5f1, 0x1e950, 0x1fbf0]

def decimalOrSpace (c : Char) : Char :=
  if c.toNat < 127 then c
  else if c.toNat ∈ unicodeSpaces then ' '
  else
    match unicodeZeros.find? fun base => base ≤ c.toNat ∧ c.toNat < base + 10 with
    | some base => Char.ofNat ('0'.toNat + (c.toNat - base))
    | none => '?'

def intBase16 (token : String) : Except PyError Int :=
  match dropSign (strip (token.toList.map decimalOrSpace)) with
  | (negative, cs) =>
    match groupedDigits (dropBase cs) with
    | none => .error (.valueError s!"invalid literal for int() with base 16: '{token}'")
    | some digits =>
      let value : Int := digits.foldl (fun n d => 16 * n + d) 0
      .ok (if negative then -value else value)

def signedToBytes (n : Int) (width : Nat) : Except PyError Bytes :=
  if n < 0 then .error (.overflowError "can't convert negative int to unsigned")
  else intToBytes n.toNat width

theorem signedToBytes_eq_ok {n : Int} {width : Nat} {b : Bytes} :
    signedToBytes n width = .ok b ↔ 0 ≤ n ∧ n < 256 ^ width ∧ b = toBE width n.toNat := by
  unfold signedToBytes
  split
  · rename_i hsign
    simp [Int.not_le.mpr hsign]
  · rename_i hsign
    have hcast : n.toNat < 256 ^ width ↔ n < 256 ^ width := by
      rw [Int.toNat_lt (not_lt.mp hsign)]
      push_cast
      rfl
    rw [intToBytes_eq_ok, hcast]
    exact (and_iff_right (not_lt.mp hsign)).symm

structure Member where
  nodeId : String
  peerAddress : String
  epoch : Nat
  phase : MemberPhase
  tokens : List String
  deriving DecidableEq, Repr

namespace Member

def vnodes (m : Member) : Except PyError (List VNode) :=
  m.tokens.mapM fun token => do
    let value ← intBase16 token
    return ⟨value, m.nodeId⟩

def supersedes (m other : Member) : Bool := m.epoch > other.epoch

theorem nodeId_of_mem_vnodes {m : Member} {vs : List VNode} (h : m.vnodes = .ok vs) {v : VNode}
    (hv : v ∈ vs) : v.nodeId = m.nodeId := by
  obtain ⟨token, _, htoken⟩ := exists_of_mem_mapM_right h hv
  simp only [bind_eq_ok, pure_eq_ok] at htoken
  obtain ⟨value, _, rfl⟩ := htoken
  rfl

end Member

class Digests where
  md5 : Bytes → String
  sha256 : Bytes → String

def VNode.Before (a b : VNode) : Prop := a.token ≤ b.token

instance : DecidableRel VNode.Before := fun a b => inferInstanceAs (Decidable (a.token ≤ b.token))

instance : Std.Total VNode.Before := ⟨fun a b => Int.le_total a.token b.token⟩

instance : IsTrans VNode VNode.Before := ⟨fun _ _ _ => Int.le_trans⟩

structure Ring where
  vnodes : List VNode
  sorted : vnodes.Pairwise VNode.Before

namespace Ring

variable {as bs : List VNode} {p : VNode → Bool} {r r' : Ring}

def make (vnodes : List VNode) : Ring := ⟨vnodes.insertionSort VNode.Before, pairwise_insertionSort _ vnodes⟩

def empty : Ring := ⟨[], .nil⟩

def mergeSorted : List VNode → List VNode → List VNode
  | [], bs => bs
  | as, [] => as
  | a :: as, b :: bs =>
    if a.token ≤ b.token then a :: mergeSorted as (b :: bs) else b :: mergeSorted (a :: as) bs

theorem mergeSorted_eq_merge (as bs : List VNode) :
    mergeSorted as bs = as.merge bs fun a b => a.token ≤ b.token := by
  fun_induction mergeSorted as bs with
  | case1 bs => simp
  | case2 as => simp
  | case3 a as b bs h ih => simp [h, ih]
  | case4 a as b bs h ih => simp [h, ih]

theorem mergeSorted_perm (as bs : List VNode) : (mergeSorted as bs).Perm (as ++ bs) := by
  rw [mergeSorted_eq_merge]
  exact merge_perm_append _

theorem mergeSorted_sorted (ha : as.Pairwise VNode.Before) (hb : bs.Pairwise VNode.Before) :
    (mergeSorted as bs).Pairwise VNode.Before := by
  have hiff {l : List VNode} : l.Pairwise (fun a b => decide (a.token ≤ b.token) = true) ↔
      l.Pairwise VNode.Before := by
    simp only [decide_eq_true_iff]
    rfl
  rw [mergeSorted_eq_merge, ← hiff]
  refine pairwise_merge ?_ ?_ as bs (hiff.mpr ha) (hiff.mpr hb)
  · intro a b c hab hbc
    simp only [decide_eq_true_iff] at hab hbc ⊢
    omega
  · intro a b
    simpa using Int.le_total a.token b.token

theorem mergeSorted_filter (ha : ∀ a ∈ as, p a = false) (hb : ∀ b ∈ bs, p b = true) :
    (mergeSorted as bs).filter p = bs := by
  fun_induction mergeSorted as bs with
  | case1 bs => exact filter_eq_self.mpr hb
  | case2 as => exact filter_eq_nil_iff.mpr fun a hin => by simp [ha a hin]
  | case3 a as b bs _ ih =>
    obtain ⟨hfirst, hrest⟩ := forall_mem_cons.mp ha
    rw [filter_cons_of_neg (by simp [hfirst])]
    exact ih hrest hb
  | case4 a as b bs _ ih =>
    obtain ⟨hfirst, hrest⟩ := forall_mem_cons.mp hb
    rw [filter_cons_of_pos hfirst]
    exact congrArg _ (ih ha hrest)

def Yielding (p : VNode → Bool) (vnodes : List VNode) : Prop :=
  vnodes.Pairwise fun v w => p v = true → p w = false → v.token ≠ w.token

theorem mergeSorted_yielding (hsorted : as.Pairwise VNode.Before) (ha : ∀ a ∈ as, p a = false)
    (hb : ∀ b ∈ bs, p b = true) : Yielding p (mergeSorted as bs) := by
  fun_induction mergeSorted as bs with
  | case1 bs =>
    refine pairwise_of_forall_mem_list fun v _ w hw _ hpw => ?_
    exact absurd (hb w hw) (by simp [hpw])
  | case2 as =>
    refine pairwise_of_forall_mem_list fun v hv w _ hpv _ => ?_
    exact absurd hpv (by simp [ha v hv])
  | case3 a as b bs _ ih =>
    obtain ⟨hfirst, hrest⟩ := forall_mem_cons.mp ha
    refine pairwise_cons.mpr ⟨fun w _ hpa => absurd hpa (by simp [hfirst]), ?_⟩
    exact ih hsorted.of_cons hrest hb
  | case4 a as b bs hlt ih =>
    obtain ⟨hfirst, hrest⟩ := forall_mem_cons.mp hb
    refine pairwise_cons.mpr ⟨fun w hw _ hpw => ?_, ih hsorted ha hrest⟩
    rcases mem_append.mp ((mergeSorted_perm _ _).mem_iff.mp hw) with hother | hown
    · have hle : a.token ≤ w.token := by
        rcases mem_cons.mp hother with rfl | hlater
        · exact Int.le_refl _
        · exact rel_of_pairwise_cons hsorted hlater
      omega
    · exact absurd (hrest w hown) (by simp [hpw])

theorem mergeSorted_split {l : List VNode} (hsorted : l.Pairwise VNode.Before) (hyielding : Yielding p l) :
    mergeSorted (l.filter fun v => !p v) (l.filter p) = l := by
  induction l with
  | nil => simp [mergeSorted]
  | cons v l ih =>
    have hrest := ih hsorted.of_cons hyielding.of_cons
    rw [mergeSorted_eq_merge] at hrest ⊢
    have hle {w : VNode} (hw : w ∈ l) : v.token ≤ w.token := rel_of_pairwise_cons hsorted hw
    cases hp : p v with
    | false =>
      rw [filter_cons_of_pos (by simp [hp]), filter_cons_of_neg (by simp [hp])]
      cases hown : l.filter p with
      | nil =>
        rw [hown, merge_right] at hrest
        rw [merge_right, hrest]
      | cons w own =>
        have hw : w ∈ l := (mem_filter.mp (hown ▸ mem_cons_self)).1
        rw [cons_merge_cons, if_pos (by simpa using hle hw), ← hown, hrest]
    | true =>
      rw [filter_cons_of_neg (by simp [hp]), filter_cons_of_pos hp]
      cases hother : l.filter fun v => !p v with
      | nil =>
        rw [hother, nil_merge] at hrest
        rw [nil_merge, hrest]
      | cons w other =>
        obtain ⟨hw, hpw⟩ := mem_filter.mp (hother ▸ mem_cons_self : w ∈ l.filter fun v => !p v)
        have hne := rel_of_pairwise_cons hyielding hw hp (by simpa using hpw)
        have hgt : ¬ w.token ≤ v.token := fun h => hne (Int.le_antisymm (hle hw) h)
        rw [cons_merge_cons, if_neg (by simpa using hgt), ← hother, hrest]

def addVnodes (r : Ring) (vnodes : List VNode) : Ring :=
  if vnodes = [] then r
  else ⟨mergeSorted r.vnodes (vnodes.insertionSort VNode.Before),
    mergeSorted_sorted r.sorted (pairwise_insertionSort _ vnodes)⟩

def dropNodes (r : Ring) (nodeIds : List String) : Ring :=
  ⟨r.vnodes.filter fun v => v.nodeId ∉ nodeIds, r.sorted.filter _⟩

def bisectLeft (r : Ring) (token : Int) : Nat := (r.vnodes.takeWhile fun v => v.token < token).length

def successor (r : Ring) (token : Int) : Except PyError VNode :=
  match r.vnodes.rotate (r.bisectLeft token) with
  | [] => .error (.valueError "Cannot find successor in an empty ring")
  | v :: _ => .ok v

def iterFrom (r : Ring) (vnode : VNode) : List VNode := r.vnodes.rotate (r.bisectLeft vnode.token)

def serial [Digests] (r : Ring) : Except PyError String := do
  let parts ← r.vnodes.mapM fun v => do
    let token ← signedToBytes v.token 16
    return encodeUtf8 v.nodeId ++ token
  return Digests.md5 parts.flatten

theorem addVnodes_eq (r : Ring) (vnodes : List VNode) :
    (r.addVnodes vnodes).vnodes = mergeSorted r.vnodes (vnodes.insertionSort VNode.Before) := by
  unfold addVnodes
  split
  · rename_i hnil
    rw [hnil, mergeSorted_eq_merge]
    exact (merge_right ..).symm
  · rfl

theorem addVnodes_perm (r : Ring) (vnodes : List VNode) :
    (r.addVnodes vnodes).vnodes.Perm (r.vnodes ++ vnodes) := by
  rw [addVnodes_eq]
  exact (mergeSorted_perm _ _).trans
    (List.Perm.append_left _ (perm_insertionSort VNode.Before vnodes))

theorem eq_of_vnodes (h : r.vnodes = r'.vnodes) : r = r' := by
  cases r
  cases r'
  cases h
  rfl

theorem eq_of_perm (hperm : r'.vnodes.Perm r.vnodes) (hdistinct : (r.vnodes.map VNode.token).Nodup) : r' = r := by
  refine eq_of_vnodes (hperm.eq_of_pairwise ?_ r'.sorted r.sorted)
  intro a b ha hb hab hba
  exact inj_on_of_nodup_map hdistinct (hperm.subset ha) hb (Int.le_antisymm hab hba)

def Encodable (r : Ring) : Prop := ∀ v ∈ r.vnodes, 0 ≤ v.token ∧ v.token < 256 ^ 16

theorem serial_ok_iff [Digests] : (∃ s, r.serial = .ok s) ↔ r.Encodable := by
  unfold serial
  constructor
  · rintro ⟨s, hs⟩ v hv
    obtain ⟨parts, hparts, _⟩ := bind_eq_ok.mp hs
    obtain ⟨bytes, _, hbytes⟩ := exists_of_mem_mapM hparts hv
    obtain ⟨token, htoken, _⟩ := bind_eq_ok.mp hbytes
    have hfits := signedToBytes_eq_ok.mp htoken
    exact ⟨hfits.1, hfits.2.1⟩
  · intro h
    have hparts : r.vnodes.mapM (fun v => do
        let token ← signedToBytes v.token 16
        return encodeUtf8 v.nodeId ++ token) =
        .ok (r.vnodes.map fun v => encodeUtf8 v.nodeId ++ toBE 16 v.token.toNat) := by
      apply mapM_ok_of_forall
      intro v hv
      rw [signedToBytes_eq_ok.mpr ⟨(h v hv).1, (h v hv).2, rfl⟩]
      rfl
    rw [hparts]
    exact ⟨_, rfl⟩

end Ring

end Tourillon
