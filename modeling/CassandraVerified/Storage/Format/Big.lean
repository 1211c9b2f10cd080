import CassandraVerified.Lib.Lru
import CassandraVerified.Lib.BinarySearch
import CassandraVerified.Storage.Format.Bloom

/-!
# The Big format

`sstable/writer.rs`, `sstable/reader.rs` and `sstable/key_cache.rs`: beside the data file and the
filter there is an index of all partition keys with their offsets. A reader keeps the index in
memory and searches it, unless the key cache that all readers share has the offset.
-/

namespace CassandraVerified.Storage

open Wire (beBytes Reader)

/-- `b"SSIX"`. -/
def indexMagic : Bytes := [0x53, 0x53, 0x49, 0x58]

def writeIndexEntry (e : Bytes × Nat) : Bytes := beBytes 4 e.1.length ++ e.1 ++ beBytes 8 e.2

/-- `Index.db`. -/
def indexFile (entries : List (Bytes × Nat)) : Bytes := indexMagic ++ entries.flatMap writeIndexEntry

/-- One entry of the index. Where no length can be read any more the index is complete. -/
def readIndexEntry (entries : List (Bytes × Nat)) :
    FileReader (List (Bytes × Nat) ⊕ List (Bytes × Nat)) := do
  let rest ← get
  if rest.length < 4 then return .inr entries
  else
    let pk ← readBytes
    let offset ← readUInt 8
    return .inl (entries ++ [(pk, offset)])

def loadIndex (file : Bytes) : Except ReadError (List (Bytes × Nat)) :=
  let reader : FileReader (List (Bytes × Nat)) := do
    let m ← readExact 4
    if m ≠ indexMagic then throw (.invalidData "invalid Index.db magic")
    else Reader.loop .unexpectedEof readIndexEntry []
  (reader.run file).map Prod.fst

variable [Lru]

/-- Offsets of partitions, by generation and key (`lru::LruCache`). -/
abbrev KeyCache := Lru.Cache (Nat × Bytes) Nat

namespace KeyCache

/-- `max_entries` of the default configuration. -/
def new : KeyCache := Lru.new 1000000

def get (c : KeyCache) (generation : Nat) (key : Bytes) : Option Nat × KeyCache :=
  Lru.get c (generation, key)

def put (c : KeyCache) (generation : Nat) (key : Bytes) (offset : Nat) : KeyCache :=
  Lru.put c (generation, key) offset

end KeyCache

/-- The files of an SSTable. -/
structure BigFiles where
  data : Bytes
  index : Bytes
  filter : Bytes

/-- What the writers call outside the crate, and the limit of the file system: no file has `2 ^ 64`
bytes or more. -/
structure WriterEnv where
  crc32 : Bytes → UInt32
  sizing : BloomSizing

/-- `SSTableWriter::write`. -/
def writeBig (env : WriterEnv) (partitions : Source) : Except String BigFiles :=
  if (dataFile env.crc32 partitions).length < 2 ^ 64 then
    .ok
      { data := dataFile env.crc32 partitions
        index := indexFile (dataOffsets dataHeader.length partitions)
        filter := (BloomFilter.ofKeys env.sizing (partitions.map Prod.fst)).file }
  else .error "file too large"

/-- An open SSTable. -/
structure BigReader where
  keyspace : String
  table : String
  generation : Nat
  data : Bytes
  bloom : BloomFilter
  index : List (Bytes × Nat)

namespace BigReader

/-- `SSTableReader::open`. -/
def openFiles (keyspace table : String) (generation : Nat) (files : BigFiles) :
    Except ReadError BigReader :=
  match BloomFilter.load files.filter with
  | .error e => .error e
  | .ok bloom =>
    match loadIndex files.index with
    | .error e => .error e
    | .ok index => .ok { keyspace, table, generation, data := files.data, bloom, index }

def mightContainKey (r : BigReader) (partitionKey : Bytes) : Bool :=
  r.bloom.mightContain partitionKey

def searchIndex (r : BigReader) (partitionKey : Bytes) : Option Nat :=
  (BinarySearch.search (fun e => compare e.1 partitionKey) r.index).map Prod.snd

/-- Reads a partition at an offset that the cache or the index has given. -/
def readAt (r : BigReader) (offset : Nat) (partitionKey : Bytes) :
    Except ReadError (Option PartitionData) :=
  readPartitionAt "unexpected marker byte: " r.data offset partitionKey

/-- A read that does not use the key cache. -/
def lookup (r : BigReader) (partitionKey : Bytes) : Except ReadError (Option PartitionData) :=
  if r.mightContainKey partitionKey then
    match r.searchIndex partitionKey with
    | none => .ok none
    | some offset => r.readAt offset partitionKey
  else .ok none

/-- The filter, then the key cache, then the index. An offset from the index is cached once the
partition has been read. -/
def getPartition (cache : KeyCache) (r : BigReader) (partitionKey : Bytes) :
    Except ReadError (Option PartitionData) × KeyCache :=
  if r.mightContainKey partitionKey then
    match cache.get r.generation partitionKey with
    | (some offset, cache) => (r.readAt offset partitionKey, cache)
    | (none, cache) =>
      match r.searchIndex partitionKey with
      | none => (.ok none, cache)
      | some offset =>
        match r.readAt offset partitionKey with
        | .ok (some p) => (.ok (some p), cache.put r.generation partitionKey offset)
        | result => (result, cache)
  else (.ok none, cache)

def iterPartitions (r : BigReader) : Except ReadError Source := scanPartitions r.data

end BigReader

/-- Keys in increasing order, as a memtable lists them. -/
def Source.KeysIncrease (s : Source) : Prop := s.Pairwise fun a b => compare a.1 b.1 = .lt

instance (s : Source) : Decidable s.KeysIncrease :=
  inferInstanceAs (Decidable (s.Pairwise fun a b => compare a.1 b.1 = .lt))

/-- The entries of the cache for an SSTable are those of its index. -/
def KeyCache.Agrees (c : KeyCache) (r : BigReader) : Prop :=
  ∀ e ∈ c.entries, e.1.1 = r.generation → r.searchIndex e.1.2 = some e.2

/-- The files can be opened, a scan lists the partitions, and a read of a key finds its partition,
or nothing where there is none. -/
def BigFiles.RoundTrips (files : BigFiles) (partitions : Source) : Prop :=
  ∀ (keyspace table : String) (generation : Nat), ∃ r,
    BigReader.openFiles keyspace table generation files = .ok r ∧
      r.iterPartitions = .ok partitions ∧
      ∀ cache : KeyCache, cache.Agrees r → ∀ k : Bytes,
        (BigReader.getPartition cache r k).1 = .ok (partitions.lookup k)

end CassandraVerified.Storage
