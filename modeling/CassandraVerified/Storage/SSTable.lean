import CassandraVerified.Storage.Engine

/-!
# SSTables by their contents

The layer of SSTables at the level of what they hold, and the state of an engine after a restart,
when it is opened over the files that the previous one has left.
-/

namespace CassandraVerified.Storage

/-- An SSTable, by what it was written with. -/
structure SSTable where
  keyspace : String
  table : String
  generation : Nat
  /-- In key order. -/
  partitions : List (Bytes × PartitionData)
deriving DecidableEq

namespace SSTable

def getPartition (t : SSTable) (partitionKey : Bytes) : Option PartitionData :=
  t.partitions.lookup partitionKey

/-- A scan takes an empty partition key for the end of the data. -/
def iterPartitions (t : SSTable) : List (Bytes × PartitionData) :=
  t.partitions.takeWhile fun p => p.1 ≠ []

/-- The table as it is found on disk. Keyspace and table are read off the file name
`keyspace-table-format-generation-TOC.txt`, where the keyspace ends at the first hyphen
(`parse_toc_filename`). -/
def reopen (t : SSTable) : SSTable :=
  let names := (splitOnce '-' (t.keyspace ++ "-" ++ t.table)).getD (t.keyspace, t.table)
  { t with keyspace := names.1, table := names.2 }

end SSTable

/-- SSTables that hold what they were written with. -/
def contentLayer : SSTableLayer SSTable Unit where
  create keyspace table generation partitions := .ok ⟨keyspace, table, generation, partitions⟩
  keyspace := SSTable.keyspace
  table := SSTable.table
  generation := SSTable.generation
  mightContainKey _ _ := true
  getPartition _ t partitionKey := (.ok (t.getPartition partitionKey), ())
  iterPartitions t := .ok t.iterPartitions

/-- The engine at the level of what its SSTables hold. -/
abbrev Store := Engine SSTable Unit

namespace Store

def new (config : CommitLogConfig) (flushThreshold : Nat) : Store :=
  .openEngine contentLayer config flushThreshold ∅ [] ()

def read (e : Store) (keyspace table : String) (partitionKey : Bytes) : Option PartitionData :=
  (e.readPartition contentLayer keyspace table partitionKey).2

end Store

end CassandraVerified.Storage
