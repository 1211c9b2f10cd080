import CassandraVerified.Coordinator.Mutation
import CassandraVerified.Storage.Compaction
import CassandraVerified.Storage.Run

/-!
# Expiry of coordinated cells

What becomes of the time to live of a cell on its way from the coordinator to `live_rows`: a replica
applies the mutation at some second, and the cell should be live for as many seconds from then on.
-/

namespace CassandraVerified.Coordinator

open Storage

/-- The cells of a mutation, with the clustering keys of their rows. -/
def CoordinatedMutation.cells (m : CoordinatedMutation) : List (Bytes × CellMutation) :=
  m.rows.flatMap (fun row => row.cells.map (row.clusteringKey, ·)) ++ m.staticCells.map ([], ·)

def CoordinatedMutation.cfName (m : CoordinatedMutation) : String := m.keyspace ++ "." ++ m.table

/-- Among the operations `ws` none overwrites the cell `c` of row `ck`, and none deletes it. -/
structure Undisturbed (ws : List Storage.Write) (ck : Bytes) (c : Cell) : Prop where
  value : c.isTombstone = false
  newest : ∀ c' ∈ cellsOf ws ck c.column, c' = c ∨ c'.rank < c.rank
  row : (viewOf ws).marked ck = false
  partition : ∀ t ∈ tombstonesOf ws, t.1 < c.timestamp

/-- A read has found the cell, and it is live in `live_rows`. -/
def ShowsCell (result : Option PartitionData) (ck : Bytes) (c : Cell) (nowSeconds : Int32) : Prop :=
  ∃ p, result = some p ∧ c ∈ p.liveCells nowSeconds ck

end CassandraVerified.Coordinator
