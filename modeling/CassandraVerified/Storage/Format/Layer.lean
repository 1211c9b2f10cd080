import CassandraVerified.Storage.Format.Bti
import CassandraVerified.Storage.Ledger

/-!
# The engine over SSTable files

The SSTables of the engine as they are: the bytes of their files, opened by the reader of their
format, with the key cache that the readers of the Big format share. Also what a flush must not
change.
-/

namespace CassandraVerified.Storage

variable [Lru]

/-- The formats of SSTables. -/
inductive SSTableFormat where
  | big
  | bti
deriving Repr, DecidableEq

def ReadError.message : ReadError → String
  | unexpectedEof => "failed to fill whole buffer"
  | invalidData message => message

/-- An open SSTable of either format. -/
inductive SSTableHandle where
  | big (reader : BigReader)
  | bti (reader : BtiReader)

namespace SSTableHandle

def keyspace : SSTableHandle → String
  | big r => r.keyspace
  | bti r => r.keyspace

def table : SSTableHandle → String
  | big r => r.table
  | bti r => r.table

def generation : SSTableHandle → Nat
  | big r => r.generation
  | bti r => r.generation

def mightContainKey (h : SSTableHandle) (partitionKey : Bytes) : Bool :=
  match h with
  | big r => r.mightContainKey partitionKey
  | bti r => r.mightContainKey partitionKey

/-- Only readers of the Big format use the key cache. -/
def getPartition (cache : KeyCache) (h : SSTableHandle) (partitionKey : Bytes) :
    Except String (Option PartitionData) × KeyCache :=
  match h with
  | big r =>
    let (result, cache) := BigReader.getPartition cache r partitionKey
    (result.mapError ReadError.message, cache)
  | bti r => ((r.getPartition partitionKey).mapError ReadError.message, cache)

def iterPartitions (h : SSTableHandle) : Except String Source :=
  match h with
  | big r => r.iterPartitions.mapError ReadError.message
  | bti r => r.iterPartitions.mapError ReadError.message

/-- What the reader of an SSTable finds, without the key cache. -/
def find (h : SSTableHandle) (partitionKey : Bytes) : Except ReadError (Option PartitionData) :=
  match h with
  | big r => r.lookup partitionKey
  | bti r => r.getPartition partitionKey

def lookup (h : SSTableHandle) (keyspace table : String) (partitionKey : Bytes) :
    Option PartitionData :=
  if h.keyspace = keyspace ∧ h.table = table ∧ h.mightContainKey partitionKey = true then
    (h.find partitionKey).toOption.join
  else none

/-- Merges what an SSTable has of a partition into what newer sources have given. -/
def mergeInto (keyspace table : String) (partitionKey : Bytes) (result : Option PartitionData)
    (h : SSTableHandle) : Option PartitionData :=
  (h.lookup keyspace table partitionKey).elim result (some <| Engine.mergeRead result ·)

def create (env : WriterEnv) (format : SSTableFormat) (keyspace table : String) (generation : Nat)
    (partitions : Source) : Except String SSTableHandle :=
  match format with
  | .big => do
    let files ← writeBig env partitions
    let reader ← (BigReader.openFiles keyspace table generation files).mapError ReadError.message
    return big reader
  | .bti => do
    let files ← writeBti env partitions
    let reader ← (BtiReader.openFiles keyspace table generation files).mapError ReadError.message
    return bti reader

end SSTableHandle

def fileLayer (env : WriterEnv) (format : SSTableFormat) : SSTableLayer SSTableHandle KeyCache where
  create := SSTableHandle.create env format
  keyspace := SSTableHandle.keyspace
  table := SSTableHandle.table
  generation := SSTableHandle.generation
  mightContainKey := SSTableHandle.mightContainKey
  getPartition := SSTableHandle.getPartition
  iterPartitions := SSTableHandle.iterPartitions

/-- The engine over the files of its SSTables. -/
abbrev FileEngine := Engine SSTableHandle KeyCache

namespace FileEngine

/-- Between calls: memtables and SSTables have been numbered before, no two SSTables have one
number, and the key cache has no offsets but those of the indexes. -/
structure Sound (e : FileEngine) : Prop where
  memtables : ∀ (cfName : String) (mt : Memtable), e.memtables.active[cfName]? = some mt →
    mt.id < e.memtables.nextId
  distinct : (e.sstables.map SSTableHandle.generation).Nodup
  numbered : ∀ t ∈ e.sstables, t.generation < e.nextGeneration
  cached : ∀ c ∈ e.cache.entries, c.1.1 < e.nextGeneration
  offsets : ∀ c ∈ e.cache.entries, ∀ r, SSTableHandle.big r ∈ e.sstables → c.1.1 = r.generation →
    r.searchIndex c.1.2 = some c.2

/-- The partitions of a memtable fit the fields of the SSTable files. -/
structure MemtableFits (e : FileEngine) (cfName : String) : Prop where
  names : Source.NamesFit (e.memtables.activeData cfName).iterPartitions
  lengths : Source.LengthsFit (e.memtables.activeData cfName).iterPartitions
  count : (e.memtables.activeData cfName).iterPartitions.length < 2 ^ 32

def read (env : WriterEnv) (format : SSTableFormat) (e : FileEngine) (keyspace table : String)
    (partitionKey : Bytes) : Option PartitionData :=
  (e.readPartition (fileLayer env format) keyspace table partitionKey).2

/-- A flush of a table that succeeds changes no read of the table, whatever its memtable and the
SSTables hold. -/
def FlushTransparent (env : WriterEnv) (format : SSTableFormat) (keyspace table : String) : Prop :=
  ∀ (e e' : FileEngine) (io : Io), e.Sound → e.MemtableFits (keyspace ++ "." ++ table) →
    e.flushCf (fileLayer env format) (keyspace ++ "." ++ table) io = (e', .ok ()) →
    ∀ pk, e'.read env format keyspace table pk = e.read env format keyspace table pk

end FileEngine

end CassandraVerified.Storage
