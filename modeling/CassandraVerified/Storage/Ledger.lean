import CassandraVerified.Storage.SSTable

/-!
# Ledgers

A ledger is the list of operations that a memtable has received, each with its partition key. It
says what a memtable, and the SSTable that is written from it, hold. A read of several of them shows
the operations of all of them.
-/

namespace CassandraVerified.Storage

/-- Operations with the partition they go to, the oldest first. -/
abbrev Ledger := List (Bytes × Write)

namespace Ledger

def writesTo (l : Ledger) (partitionKey : Bytes) : List Write :=
  (l.filter (·.1 = partitionKey)).map Prod.snd

def DistinctColumns (l : Ledger) : Prop := ∀ op ∈ l, op.2.DistinctColumns

end Ledger

/-- What a mutation does, as operations with their partition key. -/
def Mutation.ops (m : Mutation) : Ledger := m.writes.map (m.partitionKey, ·)

def ledgerOf (ms : List Mutation) : Ledger := ms.flatMap Mutation.ops

/-- The operations of several mutations on one partition of a column family. -/
def writesOn (ms : List Mutation) (cfName : String) (partitionKey : Bytes) : List Write :=
  (ms.filter fun m => m.cfName = cfName ∧ m.partitionKey = partitionKey).flatMap Mutation.writes

/-- What remains of the operations on one partition; a partition without any does not exist. -/
def partitionOf : List Write → Option PartitionData
  | [] => none
  | w :: ws => some (.ofWrites (w :: ws))

/-- The memtable has received the operations of a ledger. -/
def MemtableData.Records (d : MemtableData) (l : Ledger) : Prop :=
  ∀ pk, d.getPartition pk = partitionOf (l.writesTo pk)

/-- What the active memtable of a column family holds. -/
def MemtableManager.activeData (mgr : MemtableManager) (cfName : String) : MemtableData :=
  match mgr.active[cfName]? with
  | some mt => mgr.contents mt.id
  | none => .empty

/-- The SSTable was written from the operations of a ledger. -/
def SSTable.Records (t : SSTable) (l : Ledger) : Prop :=
  ∀ pk, t.getPartition pk = partitionOf (l.writesTo pk)

/-- The partition that a read has found shows the operations `ws`. -/
structure Shows (result : Option PartitionData) (ws : List Write) : Prop where
  none_iff : result = none ↔ ws = []
  distinctColumns : ∀ p, result = some p → p.DistinctColumns
  view_eq : ∀ p, result = some p → p.view = viewOf ws

/-- The operations of a partition: its rows in clustering order, then its tombstone. -/
def PartitionData.writes (p : PartitionData) : List Write :=
  p.rowList.map .row ++ p.tombstone.toList.map fun t => .tombstone t.1 t.2

end CassandraVerified.Storage
