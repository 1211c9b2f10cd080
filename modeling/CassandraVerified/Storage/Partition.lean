import CassandraVerified.Lib.MachineInt
import CassandraVerified.Lib.TreeMap

/-!
# Cells, rows and partitions

`memtable/partition.rs`: a partition maps clustering keys to rows and may carry a partition
tombstone; a row is a list of cells, one for each column written so far, and may be marked as
deleted; a cell is one version of one column.
-/

namespace CassandraVerified.Storage

open Std (ExtTreeMap)

/-- Partition keys, clustering keys and values. -/
abbrev Bytes := List UInt8

/-- A cell of a row. -/
structure Cell where
  column : String
  value : Option Bytes
  /-- Write time in microseconds, chosen by the client. -/
  timestamp : Int64
  /-- Time to live in seconds; `0` means that the cell does not expire. -/
  ttl : Int32
  /-- The second at which an expiring cell dies, or at which a tombstone was written. -/
  localDeletionTime : Option Int32
  isTombstone : Bool
deriving Repr, DecidableEq

namespace Cell

/-- Whether a read at `nowSeconds` counts the cell as present. -/
def isLiveAt (c : Cell) (nowSeconds : Int32) : Bool :=
  if c.isTombstone then false
  else if 0 < c.ttl then
    match c.localDeletionTime with
    | some ldt => nowSeconds < ldt
    | none => true
  else true

/-- The newer one and, at equal timestamps, a tombstone rather than a value. Otherwise the receiver
stays. -/
def mergeWith (c other : Cell) : Cell :=
  if other.timestamp > c.timestamp then other
  else if other.timestamp = c.timestamp ∧ other.isTombstone ∧ ¬ c.isTombstone then other
  else c

end Cell

/-- A row of a partition. -/
structure Row where
  clusteringKey : Bytes
  cells : List Cell
  /-- The row-level tombstone: a flag, without the timestamp of the deletion. -/
  isTombstone : Bool
  localDeletionTime : Option Int32
deriving Repr, DecidableEq

namespace Row

/-- Merges one cell into the first cell of the same column, or appends it. -/
def mergeCell : List Cell → Cell → List Cell
  | [], other => [other]
  | c :: cs, other =>
    if c.column = other.column then c.mergeWith other :: cs else c :: mergeCell cs other

def mergeWith (r other : Row) : Row :=
  { clusteringKey := r.clusteringKey
    cells := other.cells.foldl mergeCell r.cells
    isTombstone := r.isTombstone || other.isTombstone
    localDeletionTime :=
      if other.isTombstone ∧ ¬ r.isTombstone then other.localDeletionTime
      else r.localDeletionTime }

@[simp] theorem mergeWith_clusteringKey (r other : Row) :
    (r.mergeWith other).clusteringKey = r.clusteringKey := rfl

@[simp] theorem mergeWith_cells (r other : Row) :
    (r.mergeWith other).cells = other.cells.foldl mergeCell r.cells := rfl

@[simp] theorem mergeWith_isTombstone (r other : Row) :
    (r.mergeWith other).isTombstone = (r.isTombstone || other.isTombstone) := rfl

end Row

/-- All rows of a partition, and its tombstone if it has one. The last two fields hold of whatever
`empty`, `applyRow` and `setTombstone` build, and when rows or the tombstone are dropped. -/
structure PartitionData where
  rows : ExtTreeMap Bytes Row
  tombstoneTimestamp : Option Int64
  tombstoneLocalDeletionTime : Option Int32
  /-- Every row is filed under its own clustering key. -/
  keyed : ∀ (ck : Bytes) (r : Row), rows[ck]? = some r → r.clusteringKey = ck
  /-- The two halves of a partition tombstone come and go together. -/
  paired : tombstoneTimestamp.isSome = tombstoneLocalDeletionTime.isSome
deriving DecidableEq

namespace PartitionData

/-- A partition without rows (`PartitionData::new`). -/
def empty : PartitionData where
  rows := ∅
  tombstoneTimestamp := none
  tombstoneLocalDeletionTime := none
  keyed := by simp
  paired := rfl

instance : Inhabited PartitionData := ⟨empty⟩

/-- The row stored under a key after `row` arrived. -/
def mergedRow (row : Row) : Option Row → Option Row
  | none => some row
  | some existing => some (existing.mergeWith row)

/-- Merges a row into the partition. -/
def applyRow (p : PartitionData) (row : Row) : PartitionData where
  rows := p.rows.alter row.clusteringKey (mergedRow row)
  tombstoneTimestamp := p.tombstoneTimestamp
  tombstoneLocalDeletionTime := p.tombstoneLocalDeletionTime
  keyed ck r h := by
    simp only [ExtTreeMap.getElem?_alter, Std.compare_eq_iff_eq] at h
    split at h
    · next hck =>
      cases hold : p.rows[row.clusteringKey]? with
      | none =>
        simp only [hold, mergedRow, Option.some.injEq] at h
        exact h ▸ hck
      | some existing =>
        simp only [hold, mergedRow, Option.some.injEq] at h
        rw [← h, Row.mergeWith_clusteringKey, p.keyed _ _ hold, hck]
    · exact p.keyed ck r h
  paired := p.paired

/-- Sets the partition tombstone, unless one that is at least as new is there. -/
def setTombstone (p : PartitionData) (timestamp : Int64) (localDeletionTime : Int32) :
    PartitionData :=
  match p.tombstoneTimestamp with
  | some existing =>
    if existing ≥ timestamp then p
    else { p with
      tombstoneTimestamp := some timestamp
      tombstoneLocalDeletionTime := some localDeletionTime
      paired := rfl }
  | none => { p with
      tombstoneTimestamp := some timestamp
      tombstoneLocalDeletionTime := some localDeletionTime
      paired := rfl }

/-- The rows in clustering order (`rows.values()`). -/
def rowList (p : PartitionData) : List Row := TreeMap.values p.rows

/-- A row marked as deleted is dropped, and so is one without a cell newer than a partition
tombstone whose deletion time has come. -/
def rowIsLive (p : PartitionData) (nowSeconds : Int32) (row : Row) : Bool :=
  if row.isTombstone then false
  else
    match p.tombstoneTimestamp, p.tombstoneLocalDeletionTime with
    | some ts, some ldt =>
      if nowSeconds ≥ ldt then row.cells.any (fun c => c.timestamp > ts) else true
    | _, _ => true

/-- The rows a read at `nowSeconds` sees, with all their cells. -/
def liveRows (p : PartitionData) (nowSeconds : Int32) : List Row :=
  p.rowList.filter (p.rowIsLive nowSeconds)

end PartitionData

end CassandraVerified.Storage
