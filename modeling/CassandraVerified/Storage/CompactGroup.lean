import CassandraVerified.Storage.Compaction
import CassandraVerified.Storage.Ledger

/-!
# Compacting a group of SSTables

`compact_group` of `engine.rs`: the partitions of the SSTables of a group are merged and purged, and
written as new SSTables in place of the group. The purge looks at the group alone.
-/

namespace CassandraVerified.Storage

/-- The size that a partition will take up, roughly. -/
def estimateCompactionOutputSize (key : Bytes) (data : PartitionData) : Nat := key.length + 4 +
    (data.rowList.map fun row =>
      row.clusteringKey.length + 10 + (row.cells.map fun cell =>
          cell.column.utf8ByteSize + 16 + (cell.value.elim 0 fun v => v.length + 4) +
            (if cell.localDeletionTime.isSome then 4 else 0)).sum +
        (if row.localDeletionTime.isSome then 4 else 0)).sum + 1

/-- The partitions that are left, with the batch so far and its size. A batch is closed when the
next partition would take it over the limit. -/
def splitBatches (maxSize : Nat) : Source → Source → Nat → List Source
  | [], current, _ => if current.isEmpty then [] else [current]
  | e :: partitions, current, currentSize =>
    if ¬ current.isEmpty ∧ currentSize + estimateCompactionOutputSize e.1 e.2 > maxSize then
      current :: splitBatches maxSize partitions [e] (estimateCompactionOutputSize e.1 e.2)
    else
      splitBatches maxSize partitions (current ++ [e])
        (currentSize + estimateCompactionOutputSize e.1 e.2)

/-- Splits the compacted partitions into the batches of the output SSTables. -/
def splitCompactionOutput (partitions : Source) (maxSSTableSize : Option Nat) : List Source :=
  match maxSSTableSize.filter (0 < ·) with
  | none => if partitions.isEmpty then [] else [partitions]
  | some maxSize => splitBatches maxSize partitions [] 0

/-- The estimated size of a batch. -/
def Source.estimatedSize (batch : Source) : Nat :=
  (batch.map fun e => estimateCompactionOutputSize e.1 e.2).sum

/-- The batches are the partitions in order, each as long as the limit allows. -/
structure GreedilySplit (partitions : Source) (limit : Option Nat) (batches : List Source) :
    Prop where
  flatten : batches.flatten = partitions
  nonempty : ∀ batch ∈ batches, batch ≠ []
  within : ∀ maxSize ∈ limit, ∀ batch ∈ batches, 1 < batch.length → batch.estimatedSize ≤ maxSize
  /-- The next partition would have taken the batch over the limit. -/
  greedy : batches.IsChain fun batch next => ∃ maxSize ∈ limit, ∀ e ∈ next.head?,
    maxSize < batch.estimatedSize + estimateCompactionOutputSize e.1 e.2

/-- The settings of a compaction. -/
structure CompactionOptions where
  gcGraceSeconds : Int32
  outputMaxSizeBytes : Option Nat := none

namespace Engine

variable {T C : Type} (layer : SSTableLayer T C)

/-- One SSTable for each batch, from `generation` on; `fails` says which writes fail. Returns the
next generation and the tables. -/
def writeBatches (keyspace table : String) (fails : Nat → Bool) :
    List Source → (generation : Nat) → Nat × Except String (List T)
  | [], generation => (generation, .ok [])
  | batch :: batches, generation =>
    match if fails generation then .error "i/o error" else
        layer.create keyspace table generation batch with
    | .error e => (generation + 1, .error e)
    | .ok t =>
      match writeBatches keyspace table fails batches (generation + 1) with
      | (next, .error e) => (next, .error e)
      | (next, .ok tables) => (next, .ok (t :: tables))

/-- Replaces the SSTables `groupIds` by what is left of them, under the names of the first one. -/
def compactGroup (options : CompactionOptions) (nowSeconds : Int32) (fails : Nat → Bool)
    (e : Engine T C) (groupIds : List Nat) : Engine T C × Except EngineError Unit :=
  let retained := e.sstables.filter fun t => layer.generation t ∉ groupIds
  match e.sstables.filter fun t => layer.generation t ∈ groupIds with
  | [] => (e, .ok ())
  | first :: rest =>
    match (first :: rest).mapM layer.iterPartitions with
    | .error err => (e, .error (.sstable err))
    | .ok sources =>
      let merged := mergePartitions sources options.gcGraceSeconds nowSeconds
      if merged.isEmpty then ({ e with sstables := retained }, .ok ())
      else
        match writeBatches layer (layer.keyspace first) (layer.table first) fails
            (splitCompactionOutput merged options.outputMaxSizeBytes) e.nextGeneration with
        | (next, .error err) => ({ e with nextGeneration := next }, .error (.sstable err))
        | (next, .ok tables) =>
          ({ e with nextGeneration := next, sstables := retained ++ tables }, .ok ())

end Engine

/-- What may delete data. -/
inductive Deletion where
  | partition (ts : Int64) (ldt : Int32)
  | row (ck : Bytes) (ldt : Option Int32)
  | cell (ck : Bytes) (c : Cell)

namespace Deletion

def In (p : PartitionData) : Deletion → Prop
  | partition ts ldt => p.tombstone = some (ts, ldt)
  | row ck ldt => ∃ r : Row, p.rows[ck]? = some r ∧ r.isTombstone = true ∧ r.localDeletionTime = ldt
  | cell ck c => ∃ r : Row, p.rows[ck]? = some r ∧ c ∈ r.cells ∧ c.isTombstone = true

/-- Some value among the operations is hidden by the tombstone. The mark of a deleted row has no
timestamp and hides whatever is in the row. -/
def Shadows (ops : List Write) : Deletion → Prop
  | partition ts _ => ∃ ck col, ∃ c ∈ cellsOf ops ck col, c.isTombstone = false ∧ c.timestamp ≤ ts
  | row ck _ => ∃ col, ∃ c ∈ cellsOf ops ck col, c.isTombstone = false
  | cell ck d => ∃ c ∈ cellsOf ops ck d.column, c.isTombstone = false ∧ c.timestamp ≤ d.timestamp

/-- The grace period of the tombstone is over, or that of the deleted row that a cell is in. -/
def Purgeable (gcCutoff : Int32) (p : PartitionData) : Deletion → Prop
  | partition _ ldt => ldt ≤ gcCutoff
  | row _ ldt => ∃ l ∈ ldt, l ≤ gcCutoff
  | cell ck c => (∃ l ∈ c.localDeletionTime, l ≤ gcCutoff) ∨
      ∃ r : Row, p.rows[ck]? = some r ∧ r.isTombstone = true ∧
        ∃ l ∈ r.localDeletionTime, l ≤ gcCutoff

end Deletion

/-- A deletion hides what the column of `c` in row `ck` holds: the row is not live at `now`, or the
newest cell of the column is a tombstone. -/
def DeletionHides (result : Option PartitionData) (now : Int32) (ck : Bytes) (c : Cell) : Prop :=
  ∃ p ∈ result, (∃ r : Row, p.rows[ck]? = some r ∧ p.rowIsLive now r = false) ∨
    ∃ d : Cell, p.view.cell ck c.column = some d ∧ d.isTombstone = true

namespace Store

def groupSources (e : Store) (groupIds : List Nat) : List Source :=
  (e.sstables.filter fun t => t.generation ∈ groupIds).map SSTable.iterPartitions

section

variable (e : Store) (groupIds : List Nat) (keyspace table : String)

/-- The partitions with a key that the memtable and the SSTables outside the group hold. -/
def outsidePartitions (pk : Bytes) : List PartitionData :=
  ((e.memtables.activeData (keyspace ++ "." ++ table)).getPartition pk).toList ++
    (e.sstables.filter fun t =>
      t.generation ∉ groupIds ∧ t.keyspace = keyspace ∧ t.table = table).filterMap
        (·.getPartition pk)

/-- What they hold, as operations. -/
def outside (pk : Bytes) : List Write :=
  (e.outsidePartitions groupIds keyspace table pk).flatMap PartitionData.writes

/-- No tombstone is missing in the output of a compaction, from `e` to `e'`, that shadows data
outside the group. -/
def KeepsShadowing (e' : Store) : Prop :=
  ∀ (pk : Bytes) (p : PartitionData), (mergeSources (e.groupSources groupIds))[pk]? = some p →
    ∀ d : Deletion, d.In p → d.Shadows (e.outside groupIds keyspace table pk) →
      ∃ t ∈ e'.sstables, e.nextGeneration ≤ t.generation ∧ ∃ p' ∈ t.getPartition pk, d.In p'

/-- What a deletion hid before the compaction, it hides from then on. -/
def StaysHidden (now : Int32) (e' : Store) : Prop :=
  ∀ t, now ≤ t → ∀ pk ck c, DeletionHides (e.read keyspace table pk) t ck c →
    c ∉ liveCellsOf (e'.read keyspace table pk) t ck

/-- No tombstone of the merged group whose grace period is over shadows data outside the group. -/
def NothingShadowed (gcCutoff : Int32) : Prop :=
  ∀ (pk : Bytes) (p : PartitionData), (mergeSources (e.groupSources groupIds))[pk]? = some p →
    ∀ d : Deletion, d.In p → d.Purgeable gcCutoff p →
      ¬ d.Shadows (e.outside groupIds keyspace table pk)

/-- No partition is empty, no row lists a column twice, the SSTables list each key once and have
been numbered before, and those of the group belong to the table and do not hold the empty key, at
which a scan ends. -/
structure Compactable : Prop where
  memtable : ∀ pk, ∀ p ∈ (e.memtables.activeData (keyspace ++ "." ++ table)).getPartition pk,
    p.writes ≠ [] ∧ p.DistinctColumns
  keys : ∀ t ∈ e.sstables, (t.partitions.map Prod.fst).Nodup
  partitions : ∀ t ∈ e.sstables, ∀ x ∈ t.partitions, x.2.writes ≠ [] ∧ x.2.DistinctColumns
  gens : ∀ t ∈ e.sstables, t.generation < e.nextGeneration
  group : ∀ t ∈ e.sstables, t.generation ∈ groupIds →
    t.keyspace = keyspace ∧ t.table = table ∧ ∀ x ∈ t.partitions, x.1 ≠ []

/-- All partition tombstones with one key and one timestamp have the same local deletion time. -/
def TombstonesAgree : Prop := ∀ pk, ∀ t ∈ tombstonesOf (e.outside [] keyspace table pk),
    ∀ t' ∈ tombstonesOf (e.outside [] keyspace table pk), t.1 = t'.1 → t = t'

end

end Store

end CassandraVerified.Storage
