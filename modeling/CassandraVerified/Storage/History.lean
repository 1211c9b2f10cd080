import CassandraVerified.Lib.Lww
import CassandraVerified.Storage.Partition

/-!
# Histories of writes

A partition answers reads about the writes it has received. Its abstract model is the list of those
writes, whose meaning is a `View`: for each column of each row the newest cell, for each row whether
it was written and whether a row tombstone was, and the newest partition tombstone. `viewOf` maps
concatenation of histories to `View.merge`.
-/

namespace CassandraVerified.Storage

/-- A write to a partition. -/
inductive Write where
  /-- `PartitionData::apply_row`. -/
  | row (r : Row)
  /-- `PartitionData::set_tombstone`. -/
  | tombstone (timestamp : Int64) (localDeletionTime : Int32)
deriving Repr, DecidableEq

/-- What decides between two cells of one column: the timestamp and, at equal timestamps, whether
the cell is a tombstone. -/
def Cell.rank (c : Cell) : Int64 ×ₗ Bool := toLex (c.timestamp, c.isTombstone)

/-- The first cell of a column; merging a row only ever touches this one. -/
def Row.cell? (r : Row) (col : String) : Option Cell := r.cells.find? (·.column = col)

def Row.DistinctColumns (r : Row) : Prop := (r.cells.map Cell.column).Nodup

instance (r : Row) : Decidable r.DistinctColumns := inferInstanceAs (Decidable (List.Nodup _))

namespace Write

/-- The cells that a write brings to column `col` of row `ck`. -/
def cells (ck : Bytes) (col : String) : Write → List Cell
  | row r => if r.clusteringKey = ck then r.cells.filter (·.column = col) else []
  | tombstone _ _ => []

def touches (ck : Bytes) : Write → Bool
  | row r => r.clusteringKey = ck
  | tombstone _ _ => false

def marks (ck : Bytes) : Write → Bool
  | row r => r.clusteringKey = ck && r.isTombstone
  | tombstone _ _ => false

def tombstone? : Write → Option (Int64 × Int32)
  | row _ => none
  | tombstone ts ldt => some (ts, ldt)

def DistinctColumns : Write → Prop
  | row r => r.DistinctColumns
  | tombstone _ _ => True

instance : (w : Write) → Decidable w.DistinctColumns
  | row r => inferInstanceAs (Decidable r.DistinctColumns)
  | tombstone _ _ => isTrue trivial

end Write

/-- What a partition knows. -/
@[ext]
structure View where
  /-- Timestamp and local deletion time of the newest partition tombstone. -/
  tombstone : Option (Int64 × Int32)
  touched : Bytes → Bool
  marked : Bytes → Bool
  cell : Bytes → String → Option Cell

/-- What is known after the writes behind `v` and then those behind `w`. -/
def View.merge (v w : View) : View where
  tombstone := Lww.merge Prod.fst v.tombstone w.tombstone
  touched ck := v.touched ck || w.touched ck
  marked ck := v.marked ck || w.marked ck
  cell ck col := Lww.merge Cell.rank (v.cell ck col) (w.cell ck col)

/-- Row `ck` was written and not marked as deleted, and a partition tombstone whose deletion time
has come is older than some cell of it. -/
def View.RowShown (v : View) (nowSeconds : Int32) (ck : Bytes) : Prop :=
  v.touched ck = true ∧ v.marked ck = false ∧
    ∀ ts ldt, v.tombstone = some (ts, ldt) → ldt ≤ nowSeconds →
      ∃ col c, v.cell ck col = some c ∧ ts < c.timestamp

/-- All cells that a history brings to a column of a row, oldest arrival first. -/
def cellsOf (ws : List Write) (ck : Bytes) (col : String) : List Cell :=
  ws.flatMap (Write.cells ck col)

def tombstonesOf (ws : List Write) : List (Int64 × Int32) := ws.filterMap Write.tombstone?

/-- The meaning of a history. -/
def viewOf (ws : List Write) : View where
  tombstone := (tombstonesOf ws).argmax Prod.fst
  touched ck := ws.any (Write.touches ck)
  marked ck := ws.any (Write.marks ck)
  cell ck col := (cellsOf ws ck col).argmax Cell.rank

namespace PartitionData

def apply (p : PartitionData) : Write → PartitionData
  | .row r => p.applyRow r
  | .tombstone ts ldt => p.setTombstone ts ldt

def applyAll (p : PartitionData) (ws : List Write) : PartitionData := ws.foldl apply p

def ofWrites (ws : List Write) : PartitionData := empty.applyAll ws

def tombstone (p : PartitionData) : Option (Int64 × Int32) :=
  match p.tombstoneTimestamp, p.tombstoneLocalDeletionTime with
  | some ts, some ldt => some (ts, ldt)
  | _, _ => none

def view (p : PartitionData) : View where
  tombstone := p.tombstone
  touched ck := p.rows[ck]?.isSome
  marked ck := p.rows[ck]?.any Row.isTombstone
  cell ck col := p.rows[ck]?.bind (·.cell? col)

/-- No row of the partition lists a column twice. -/
def DistinctColumns (p : PartitionData) : Prop :=
  ∀ (ck : Bytes) (r : Row), p.rows[ck]? = some r → r.DistinctColumns

def liveRow (p : PartitionData) (nowSeconds : Int32) (ck : Bytes) : Option Row :=
  p.rows[ck]?.filter (p.rowIsLive nowSeconds)

end PartitionData

/-- The same key and the same cells, in whatever order. The local deletion time only means something
for a deleted row and is left out. -/
structure Row.SameContent (r r' : Row) : Prop where
  clusteringKey : r.clusteringKey = r'.clusteringKey
  isTombstone : r.isTombstone = r'.isTombstone
  cells : r.cells.Perm r'.cells

def SameLiveRows (p q : PartitionData) (nowSeconds : Int32) : Prop :=
  List.Forall₂ Row.SameContent (p.liveRows nowSeconds) (q.liveRows nowSeconds)

end CassandraVerified.Storage
