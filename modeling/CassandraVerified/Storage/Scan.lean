import CassandraVerified.Storage.Format.Layer

/-!
# Scans, and flushes that fail

`scan_all_partitions` of `engine.rs`. A flush that fails leaves the memtable that it has switched
out among the flushing ones, which no read and no scan looks at; `PartitionData.Supersedes` says
when nothing is missed for that.
-/

namespace CassandraVerified.Storage

open Std (ExtTreeSet)

namespace Engine

variable {T C : Type} (layer : SSTableLayer T C)

/-- The keys that an SSTable adds to a scan. One that cannot be scanned adds none. -/
def scanSSTable (keyspace table : String) (keys : ExtTreeSet Bytes) (t : T) : ExtTreeSet Bytes :=
  if layer.keyspace t = keyspace ∧ layer.table t = table then
    match layer.iterPartitions t with
    | .ok partitions => keys.insertMany (partitions.map Prod.fst)
    | .error _ => keys
  else keys

def scanKeys (e : Engine T C) (keyspace table : String) : ExtTreeSet Bytes :=
  e.sstables.foldl (scanSSTable layer keyspace table) ((∅ : ExtTreeSet Bytes).insertMany
      ((e.memtables.activeData (keyspace ++ "." ++ table)).iterPartitions.map Prod.fst))

def scanPartition (keyspace table : String) (acc : Engine T C × Source) (key : Bytes) :
    Engine T C × Source :=
  match acc.1.readPartition layer keyspace table key with
  | (e, some partition) => (e, acc.2 ++ [(key, partition)])
  | (e, none) => (e, acc.2)

def scanAllPartitions (e : Engine T C) (keyspace table : String) : Engine T C × Source :=
  (e.scanKeys layer keyspace table).toList.foldl (scanPartition layer keyspace table) (e, [])

end Engine

/-- The row holds all that `old` holds, or newer: merging it into `old` gives the row itself. -/
structure Row.Supersedes (r old : Row) : Prop where
  columns : old.cells.map Cell.column <+: r.cells.map Cell.column
  cells : ∀ c ∈ old.cells, ∃ c' ∈ r.cells, c'.column = c.column ∧ (c.rank < c'.rank ∨ c' = c)
  isTombstone : old.isTombstone = true → r.isTombstone = true
  localDeletionTime : (r.isTombstone = true → old.isTombstone = true) →
    old.localDeletionTime = r.localDeletionTime

/-- The partition holds all that `old` holds, or newer. -/
structure PartitionData.Supersedes (p old : PartitionData) : Prop where
  rows : ∀ (ck : Bytes) (r : Row), old.rows[ck]? = some r →
    ∃ r', p.rows[ck]? = some r' ∧ r'.Supersedes r
  tombstone : ∀ t, old.tombstone = some t → ∃ t', p.tombstone = some t' ∧ (t.1 < t'.1 ∨ t' = t)

namespace FileEngine

variable [Lru]

def scan (env : WriterEnv) (format : SSTableFormat) (e : FileEngine) (keyspace table : String) :
    Source :=
  (e.scanAllPartitions (fileLayer env format) keyspace table).2

/-- No row in a memtable or an SSTable lists a column twice. -/
structure DistinctColumns (e : FileEngine) : Prop where
  memtables : ∀ cfName k p, (e.memtables.activeData cfName).getPartition k = some p →
    p.DistinctColumns
  sstables : ∀ t ∈ e.sstables, ∀ k p, t.find k = .ok (some p) → p.DistinctColumns

/-- What the SSTables of a table hold of a partition. -/
def onDisk (e : FileEngine) (keyspace table : String) (partitionKey : Bytes) :
    Option PartitionData :=
  e.sstables.reverse.foldl (SSTableHandle.mergeInto keyspace table partitionKey) none

/-- Some SSTable of the table lists the key when it is scanned. -/
def Listed (e : FileEngine) (keyspace table : String) (partitionKey : Bytes) : Prop :=
  ∃ t ∈ e.sstables, (t.keyspace = keyspace ∧ t.table = table) ∧
    ∃ partitions, t.iterPartitions = .ok partitions ∧ partitionKey ∈ partitions.map Prod.fst

/-- All that the memtable of a column family holds is also in the SSTables. -/
def MemtableSuperseded (e : FileEngine) (cfName : String) : Prop :=
  ∀ keyspace table, keyspace ++ "." ++ table = cfName →
    ∀ k p, (e.memtables.activeData cfName).getPartition k = some p →
      (∃ q, e.onDisk keyspace table k = some q ∧ q.Supersedes p) ∧ e.Listed keyspace table k

/-- No read and no scan of any table tells the two engines apart. -/
def SameResults (env : WriterEnv) (format : SSTableFormat) (e e' : FileEngine) : Prop :=
  ∀ keyspace table,
    (∀ pk, e'.read env format keyspace table pk = e.read env format keyspace table pk) ∧
      e'.scan env format keyspace table = e.scan env format keyspace table

end FileEngine

end CassandraVerified.Storage
