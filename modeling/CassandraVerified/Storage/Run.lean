import CassandraVerified.Storage.Convergence
import CassandraVerified.Storage.Ledger

/-!
# Runs of the engine

Sequential runs of an engine that starts over empty directories.

A mutation is durable if a loaded SSTable contains it or the commit log still has its record. An
SSTable holds a mutation merged with others, so that it contains a cell if it has that cell or one
of the same column that wins over it.

Replay puts only the rows of a logged mutation back into a memtable: static cells, partition
tombstones and range tombstones are in the record, but are not applied. A restart therefore keeps
what reads show where the mutations that are still in memory consist of rows (`RowsOnly`).
-/

namespace CassandraVerified.Storage

namespace Store

/-- The calls on the engine. -/
inductive Op where
  | applyMutation (m : Mutation) (io : Io)
  | flushCf (cfName : String) (io : Io)
  /-- `discard_completed_segments` as the engine calls it, below the bound of every memtable. -/
  | discardSegments (io : Io)

section

variable (ext : LogExternal)

def step (e : Store) : Op → Store × Except EngineError Unit
  | .applyMutation m io => e.applyMutation contentLayer ext m io
  | .flushCf cfName io => e.flushCf contentLayer cfName io
  | .discardSegments io => (e.discardSegments io, .ok ())

def run (e : Store) : List Op → Store × List (Except EngineError Unit)
  | [] => (e, [])
  | op :: ops => (((e.step ext op).1.run ops).1, (e.step ext op).2 :: ((e.step ext op).1.run ops).2)

end

def Op.mutation? : Op → Option Mutation
  | .applyMutation m _ => some m
  | .flushCf _ _ => none
  | .discardSegments _ => none

/-- What a call leaves in memory, if it returns `Ok` and `ms` were there before. A mutation that is
flushed at once counts as left. -/
def Op.waiting (ms : List Mutation) : Op → List Mutation
  | .applyMutation m _ => ms ++ [m]
  | .flushCf cfName _ => ms.filter fun m => m.cfName ≠ cfName
  | .discardSegments _ => ms

/-- The mutations that a run leaves in memory: those that no flush of their column family
follows. -/
def waiting (ms : List Mutation) (ops : List Op) : List Mutation := ops.foldl Op.waiting ms

/-- The mutations whose `apply_mutation` returned `Ok`. -/
def acknowledged : List Op → List (Except EngineError Unit) → List Mutation
  | op :: ops, .ok _ :: results => op.mutation?.toList ++ acknowledged ops results
  | _ :: ops, .error _ :: results => acknowledged ops results
  | _, _ => []

end Store

/-- For every cell of `r`, the row has that cell or one that wins over it; it is marked as deleted
if `r` is. -/
structure Row.Covers (row r : Row) : Prop where
  isTombstone : r.isTombstone = true → row.isTombstone = true
  cells : ∀ c ∈ r.cells, ∃ c' ∈ row.cells, c'.column = c.column ∧ c.rank ≤ c'.rank

/-- The partition has taken a write into account. -/
def PartitionData.Covers (p : PartitionData) : Write → Prop
  | .row r => ∃ row, p.rows[r.clusteringKey]? = some row ∧ row.Covers r
  | .tombstone ts _ => ∃ t, p.tombstone = some t ∧ ts ≤ t.1

/-- The SSTable belongs to the column family of a mutation and its partition has taken in everything
in it. -/
def SSTable.Contains (t : SSTable) (m : Mutation) : Prop :=
  t.keyspace ++ "." ++ t.table = m.cfName ∧
    ∃ p, t.getPartition m.partitionKey = some p ∧ ∀ w ∈ m.writes, p.Covers w

/-- The live rows of a partition that was read; one that does not exist has none. -/
def liveRowsOf (result : Option PartitionData) (now : Int32) : List Row :=
  result.elim [] (·.liveRows now)

end CassandraVerified.Storage
