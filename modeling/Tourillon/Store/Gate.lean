import Tourillon.Schema.Codec

namespace Tourillon

inductive StoreOperation where
  | read
  | write
  | delete
  | repair
  | replicationWrite
  | replicationHint
  deriving DecidableEq, Repr

def StoreOperation.name : StoreOperation → String
  | read => "read"
  | write => "write"
  | delete => "delete"
  | repair => "repair"
  | replicationWrite => "replication.write"
  | replicationHint => "replication.hint"

structure Gate where
  acceptingOperations : Bool
  acceptingReads : Bool
  acceptingReadRepairs : Bool
  deriving DecidableEq, Repr

namespace Gate

def opened : Gate := ⟨true, true, true⟩

def pause (g : Gate) (readable : Bool) : Gate :=
  { g with acceptingOperations := false, acceptingReads := readable }

def resume (_ : Gate) : Gate := ⟨true, true, true⟩

def stopReadRepairs (g : Gate) : Gate := { g with acceptingReadRepairs := false }

def admitOperation (g : Gate) (operation : StoreOperation) : Except PyError Unit :=
  if if operation = .read then g.acceptingReads else g.acceptingOperations then .ok ()
  else .error (.runtimeError s!"{operation.name}: node is draining or idle")

theorem refuses {g : Gate} (h : g.acceptingOperations = false) {operation : StoreOperation}
    (hop : operation ≠ .read) : g.admitOperation operation =
      .error (.runtimeError s!"{operation.name}: node is draining or idle") := by
  rw [admitOperation, if_neg hop, if_neg (by simp [h])]

end Gate

end Tourillon
