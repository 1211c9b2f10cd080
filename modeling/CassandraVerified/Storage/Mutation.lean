import CassandraVerified.Storage.History

/-!
# Mutations

The unit of durability (`Mutation` in `commitlog/mod.rs`): everything one statement writes to one
partition. `MutationRow` and `CellMutation` of the source have the fields of `Row` and `Cell`, and
the engine copies them field by field, so the model uses `Row` and `Cell` for both.
-/

namespace CassandraVerified.Storage

/-- The deletion of a partition. -/
structure TombstoneMarker where
  timestamp : Int64
  localDeletionTime : Int32
deriving Repr, DecidableEq

/-- A range tombstone that deletes all rows with clustering keys in `[start, end]`. -/
structure RangeTombstoneMarker where
  start : Bytes
  «end» : Bytes
  timestamp : Int64
  localDeletionTime : Int32
deriving Repr, DecidableEq

/-- A mutation as the engine has it. -/
structure Mutation where
  keyspace : String
  table : String
  partitionKey : Bytes
  rows : List Row
  timestamp : Int64
  cdcEnabled : Bool := false
  staticCells : List Cell := []
  partitionTombstone : Option TombstoneMarker := none
  rangeTombstones : List RangeTombstoneMarker := []
deriving Repr, DecidableEq

/-- The tombstone row that stands for a range tombstone in a memtable: it covers the start of the
range only. -/
def RangeTombstoneMarker.toRow (rt : RangeTombstoneMarker) : Row where
  clusteringKey := rt.start
  cells := []
  isTombstone := true
  localDeletionTime := some rt.localDeletionTime

namespace Mutation

def cfName (m : Mutation) : String := m.keyspace ++ "." ++ m.table

/-- The static cells as a row with an empty clustering key. -/
def staticRow? (m : Mutation) : Option Row :=
  if m.staticCells.isEmpty then none else some ⟨[], m.staticCells, false, none⟩

/-- The rows of a mutation as operations on its partition: what replay applies. -/
def rowWrites (m : Mutation) : List Write := m.rows.map .row

/-- What is applied to the partition, in this order: the rows, the static cells, the partition
tombstone and the range tombstones. -/
def writes (m : Mutation) : List Write := m.rowWrites ++ m.staticRow?.toList.map .row ++
    m.partitionTombstone.toList.map (fun t => .tombstone t.timestamp t.localDeletionTime) ++
    m.rangeTombstones.map fun rt => .row rt.toRow

end Mutation

end CassandraVerified.Storage
