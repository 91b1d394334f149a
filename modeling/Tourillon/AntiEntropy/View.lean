import Tourillon.Storage.Digest
import Mathlib.Data.List.Sort

namespace Tourillon

open Endian

structure Partitioner where
  pshift : Nat
  gshift : Nat
  shiftLt : gshift < pshift

namespace Partitioner

variable (p : Partitioner)

def totalPartitions : Nat := 1 <<< p.pshift

def totalGroups : Nat := 1 <<< p.gshift

def groupFor (pid : Nat) : Nat := pid >>> (p.pshift - p.gshift)

theorem groupFor_lt {pid : Nat} (h : pid < p.totalPartitions) : p.groupFor pid < p.totalGroups := by
  have hshift := p.shiftLt
  unfold groupFor totalGroups
  unfold totalPartitions at h
  rw [Nat.shiftRight_eq_div_pow, Nat.one_shiftLeft, Nat.div_lt_iff_lt_mul (Nat.two_pow_pos _), ← Nat.pow_add]
  rw [Nat.one_shiftLeft] at h
  have hsum : p.gshift + (p.pshift - p.gshift) = p.pshift := by omega
  rw [hsum]
  exact h

end Partitioner

structure ReplicaView where
  nodeId : String
  serial : String
  replicas : List (List String)
  shared : List (String × List Nat)
  sources : List (List String)
  owns : Bool
  deriving DecidableEq, Repr

namespace ReplicaView

section

variable (v : ReplicaView)

def replicasOf (pid : Nat) : List String := v.replicas.getD pid []

def isReplica (pid : Nat) (node : String) : Bool := node ∈ v.replicasOf pid

def sourcesOf (pid : Nat) : List String := if v.sources = [] then v.replicasOf pid else v.sources.getD pid []

def covers (pids : List Nat) : Bool := pids.all fun pid => pid < v.replicas.length

end

variable [Blake2b]

def spread (pid : Nat) (node : String) : Nat := (Blake2b.digest8 (toBE 4 pid ++ encodeUtf8 node)).toNat

def primarySource (v : ReplicaView) (pid : Nat) : Option String :=
  let current := v.sourcesOf pid
  let candidates := current.filter fun n => n ≠ v.nodeId
  let target := v.replicasOf pid
  let entering := (target.filter fun n => n ∉ current).insertionSort (· ≤ ·)
  let leaving := (candidates.filter fun n => n ∉ target).insertionSort (· ≤ ·)
  if candidates = [] then none
  else if v.nodeId ∈ entering ∧ entering.idxOf v.nodeId < leaving.length then
    leaving[entering.idxOf v.nodeId]?
  else candidates[spread pid v.nodeId % candidates.length]?

def hashPart (v : ReplicaView) (pid : Nat) : Except PyError Bytes := do
  let pidBytes ← intToBytes pid 4
  match v.replicas[pid]? with
  | none => .error .indexError
  | some nodes =>
    let parts ← nodes.mapM fun node => do
      let length ← intToBytes (encodeUtf8 node).length 2
      return length ++ encodeUtf8 node
    return pidBytes ++ (parts.flatten ++ [255, 255])

def viewHash (v : ReplicaView) (pids : List Nat) : Except PyError (BitVec 128) := do
  let parts ← pids.mapM v.hashPart
  return Blake2b.digest16 parts.flatten

end ReplicaView

end Tourillon
