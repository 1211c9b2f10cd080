import CassandraVerified.Storage.Mutation

/-!
# Memtables

`memtable/mod.rs` with its default backend, a map from partition keys to partitions. A memtable is
shared by reference: `Memtable` is the reference with the fields that never change, and the
manager's `contents` holds what it refers to.
-/

namespace CassandraVerified.Storage

open Std (ExtTreeMap)

def estimateRowSize (row : Row) : Nat := row.clusteringKey.length + 32 +
    (row.cells.map fun c => c.column.utf8ByteSize + (c.value.map List.length).getD 0 + 24).sum

/-- The content of a memtable. -/
structure MemtableData where
  partitions : ExtTreeMap Bytes PartitionData
  approxSize : Nat

namespace MemtableData

def empty : MemtableData := ⟨∅, 0⟩

instance : Inhabited MemtableData := ⟨empty⟩

def apply (d : MemtableData) (partitionKey : Bytes) (row : Row) : MemtableData where
  partitions := d.partitions.alter partitionKey fun p => some ((p.getD .empty).applyRow row)
  approxSize := d.approxSize + estimateRowSize row

def setPartitionTombstone (d : MemtableData) (partitionKey : Bytes) (timestamp : Int64)
    (localDeletionTime : Int32) : MemtableData where
  partitions := d.partitions.alter partitionKey fun p =>
    some ((p.getD .empty).setTombstone timestamp localDeletionTime)
  approxSize := d.approxSize

def write (d : MemtableData) (partitionKey : Bytes) : Write → MemtableData
  | .row r => d.apply partitionKey r
  | .tombstone ts ldt => d.setPartitionTombstone partitionKey ts ldt

def writeAll (d : MemtableData) (partitionKey : Bytes) (ws : List Write) : MemtableData :=
  ws.foldl (write · partitionKey ·) d

def getPartition (d : MemtableData) (partitionKey : Bytes) : Option PartitionData :=
  d.partitions[partitionKey]?

def iterPartitions (d : MemtableData) : List (Bytes × PartitionData) := d.partitions.toList

end MemtableData

/-- A reference to a memtable. -/
structure Memtable where
  id : Nat
  /-- The commit log segment that was current when the memtable was created. -/
  commitlogLowerBound : Nat
deriving Repr, DecidableEq

/-- The memtables of an engine. -/
structure MemtableManager where
  /-- The memtable that takes the writes of a column family. -/
  active : ExtTreeMap String Memtable
  /-- Memtables that were switched out and are not yet known to be on disk. -/
  flushing : List (String × Memtable)
  nextId : Nat
  flushThreshold : Nat
  /-- What the references refer to. -/
  contents : Nat → MemtableData

namespace MemtableManager

def new (flushThreshold : Nat) : MemtableManager where
  active := ∅
  flushing := []
  nextId := 1
  flushThreshold := flushThreshold
  contents _ := .empty

def createActive (mgr : MemtableManager) (cfName : String) (commitlogSegmentId : Nat) :
    MemtableManager :=
  { mgr with
    active := mgr.active.insert cfName ⟨mgr.nextId, commitlogSegmentId⟩
    nextId := mgr.nextId + 1
    contents := Function.update mgr.contents mgr.nextId .empty }

def getOrCreate (mgr : MemtableManager) (cfName : String) (commitlogSegmentId : Nat) :
    Memtable × MemtableManager :=
  match mgr.active[cfName]? with
  | some mt => (mt, mgr)
  | none => (⟨mgr.nextId, commitlogSegmentId⟩, mgr.createActive cfName commitlogSegmentId)

/-- One operation on the memtable that a reference refers to. -/
def write (mgr : MemtableManager) (mt : Memtable) (partitionKey : Bytes) (ws : List Write) :
    MemtableManager :=
  { mgr with
    contents := Function.update mgr.contents mt.id
      ((mgr.contents mt.id).writeAll partitionKey ws) }

def shouldFlush (mgr : MemtableManager) : Bool :=
  ((mgr.active.toList.map fun a => (mgr.contents a.2.id).approxSize).sum) ≥ mgr.flushThreshold

/-- Replaces the active memtable by a fresh one, and returns the old one for flushing. -/
def switchMemtable (mgr : MemtableManager) (cfName : String) (commitlogSegmentId : Nat) :
    Option Memtable × MemtableManager :=
  match mgr.active[cfName]? with
  | some old =>
    (some old,
      { mgr.createActive cfName commitlogSegmentId with
        flushing := mgr.flushing ++ [(cfName, old)] })
  | none => (none, mgr.createActive cfName commitlogSegmentId)

def flushComplete (mgr : MemtableManager) (memtableId : Nat) : MemtableManager :=
  { mgr with flushing := mgr.flushing.filter fun f => f.2.id ≠ memtableId }

/-- All memtables that may hold data that is not on disk, with their column families. -/
def unflushed (mgr : MemtableManager) : List (String × Memtable) :=
  mgr.active.toList ++ mgr.flushing

def lowestCommitlogBound (mgr : MemtableManager) : Option Nat :=
  (mgr.unflushed.map (·.2.commitlogLowerBound)).min?

end MemtableManager

end CassandraVerified.Storage
