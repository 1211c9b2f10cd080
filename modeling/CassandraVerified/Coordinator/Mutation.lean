import CassandraVerified.Storage.Mutation

/-!
# Coordinated mutations

The mutations that a coordinator sends to replicas (`write.rs` of the coordinator crate), and how a
replica turns one into a mutation of its storage engine (`verb_handlers/mutation_handler.rs`).
-/

namespace CassandraVerified.Coordinator

open Storage (Bytes)

/-- The kinds of mutations. -/
inductive MutationKind where
  | standard
  | counter
  | view
deriving Repr, DecidableEq

/-- The deletion of a partition. -/
structure TombstoneMarker where
  deletionTime : Int64
  localDeletionTime : Int32
deriving Repr, DecidableEq

/-- A range tombstone deleting all rows in `[start, end]`. -/
structure RangeTombstone where
  start : Bytes
  «end» : Bytes
  deletionTime : Int64
  localDeletionTime : Int32
deriving Repr, DecidableEq

/-- An update of a collection. -/
inductive CollectionOp where
  | append (elements : List Bytes)
  | remove (elements : List Bytes)
  | mapPut (entries : List (Bytes × Bytes))
deriving Repr, DecidableEq

/-- The write of a cell. -/
structure CellMutation where
  column : String
  value : Option Bytes
  timestamp : Int64
  ttl : Int32
  isTombstone : Bool
  collectionOp : Option CollectionOp := none
deriving Repr, DecidableEq

/-- The writes of a row. -/
structure MutationRow where
  clusteringKey : Bytes
  cells : List CellMutation
  isTombstone : Bool
  rangeTombstone : Option RangeTombstone := none
deriving Repr, DecidableEq

/-- A mutation as the coordinator has it. -/
structure CoordinatedMutation where
  keyspace : String
  table : String
  partitionKey : Bytes
  rows : List MutationRow
  timestamp : Int64
  kind : MutationKind
  staticCells : List CellMutation
  partitionTombstone : Option TombstoneMarker
deriving Repr, DecidableEq

def CoordinatedMutation.simple (keyspace table : String) (partitionKey : Bytes)
    (rows : List MutationRow) (timestamp : Int64) : CoordinatedMutation where
  keyspace := keyspace
  table := table
  partitionKey := partitionKey
  rows := rows
  timestamp := timestamp
  kind := .standard
  staticCells := []
  partitionTombstone := none

/-- The cell that is stored. It has no local deletion time, whatever its time to live. -/
def toStorageCell (cell : CellMutation) : Storage.Cell where
  column := cell.column
  value := cell.value
  timestamp := cell.timestamp
  ttl := cell.ttl
  localDeletionTime := none
  isTombstone := cell.isTombstone

def toStorageRangeTombstone (marker : RangeTombstone) : Storage.RangeTombstoneMarker where
  start := marker.start
  «end» := marker.end
  timestamp := marker.deletionTime
  localDeletionTime := marker.localDeletionTime

def toStorageRow (row : MutationRow) : Storage.Row where
  clusteringKey := row.clusteringKey
  cells := row.cells.map toStorageCell
  isTombstone := row.isTombstone || row.rangeTombstone.isSome
  localDeletionTime := row.rangeTombstone.map RangeTombstone.localDeletionTime

def toStorageMutation (mutation : CoordinatedMutation) : Storage.Mutation where
  keyspace := mutation.keyspace
  table := mutation.table
  partitionKey := mutation.partitionKey
  rows := mutation.rows.map toStorageRow
  timestamp := mutation.timestamp
  cdcEnabled := false
  staticCells := mutation.staticCells.map toStorageCell
  partitionTombstone := mutation.partitionTombstone.map fun marker =>
    ⟨marker.deletionTime, marker.localDeletionTime⟩
  rangeTombstones := mutation.rows.filterMap fun row =>
    row.rangeTombstone.map toStorageRangeTombstone

end CassandraVerified.Coordinator
