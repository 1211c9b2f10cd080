import CassandraVerified.Coordinator.Mutation
import CassandraVerified.Lib.Upsert
import CassandraVerified.Lib.Wire

/-!
# Merging counter mutations

`merge_counter_mutations` of `batch.rs`: the counter mutations of a batch are merged by partition.
-/

namespace CassandraVerified.Coordinator

open Storage (Bytes)
open Upsert (upsertAll)

/-- The delta of a counter cell: an `i64` in exactly eight bytes. -/
def CellMutation.delta? (cell : CellMutation) : Option Int64 :=
  (cell.value.filter (·.length = 8)).map fun v => (UInt64.ofNat (Wire.beNat v)).toInt64

def CellMutation.mergeCounter (existing new : CellMutation) : CellMutation where
  __ := existing
  value := match existing.delta?, new.delta? with
    | some e, some n => some (Wire.beBytes 8 (e + n).toUInt64.toNat)
    | _, _ => existing.value
  timestamp := max existing.timestamp new.timestamp

def MutationRow.mergeCounter (existing new : MutationRow) : MutationRow where
  __ := existing
  cells := upsertAll (·.column) .mergeCounter existing.cells new.cells

namespace CoordinatedMutation

def key (mutation : CoordinatedMutation) : String × String × Bytes :=
  (mutation.keyspace, mutation.table, mutation.partitionKey)

def mergeCounter (existing new : CoordinatedMutation) : CoordinatedMutation where
  __ := existing
  rows := upsertAll (·.clusteringKey) .mergeCounter existing.rows new.rows
  timestamp := max existing.timestamp new.timestamp

end CoordinatedMutation

def mergeCounterMutations (order : TreeMap.IterationOrder CoordinatedMutation)
    (mutations : List CoordinatedMutation) : List CoordinatedMutation :=
  order.arrange (upsertAll (·.key) .mergeCounter [] mutations)

/-! ## Increments

They are added up as `i64`, so that the sums are those of the integers where nothing overflows.
-/

/-- What is added to a column by cells. -/
def increment (column : String) (cells : List CellMutation) : Int64 :=
  (cells.map fun c => if c.column = column then c.delta?.getD 0 else 0).sum

namespace CoordinatedMutation

def rowIncrement (clusteringKey : Bytes) (column : String) (m : CoordinatedMutation) : Int64 :=
  (m.rows.map fun r => if r.clusteringKey = clusteringKey then increment column r.cells else 0).sum

def staticIncrement (column : String) (m : CoordinatedMutation) : Int64 :=
  increment column m.staticCells

def IsCounter (m : CoordinatedMutation) : Prop := ∀ r ∈ m.rows, ∀ c ∈ r.cells, c.delta?.isSome

end CoordinatedMutation

def total (key : String × String × Bytes) (f : CoordinatedMutation → Int64)
    (mutations : List CoordinatedMutation) : Int64 :=
  (mutations.map fun m => if m.key = key then f m else 0).sum

def SameIncrements (mutations merged : List CoordinatedMutation) : Prop := ∀ key column,
    total key (·.staticIncrement column) merged = total key (·.staticIncrement column) mutations ∧
    ∀ clusteringKey, total key (·.rowIncrement clusteringKey column) merged =
      total key (·.rowIncrement clusteringKey column) mutations

end CassandraVerified.Coordinator
