import CassandraVerified.Storage.CommitLog.Log
import CassandraVerified.Storage.Memtable

/-!
# The storage engine

`engine.rs`: a mutation goes to the commit log and then to the memtable of its column family; a
flush turns a memtable into an SSTable and lets old commit log segments go; a read merges the
memtable with the SSTables, the newest first. The engine is as `StorageEngine::open` returns it,
over any layer of SSTables. What an operation meets outside the engine is of type `Io`.
-/

namespace CassandraVerified.Storage

open Std (ExtTreeMap)

/-- The SSTables of one format: `T` are open tables, and `C` is the state that reads share, such as
a key cache. -/
structure SSTableLayer (T C : Type) where
  /-- Writes the partitions to files and opens them. -/
  create : (keyspace table : String) → (generation : Nat) → List (Bytes × PartitionData) →
    Except String T
  keyspace : T → String
  table : T → String
  generation : T → Nat
  mightContainKey : T → Bytes → Bool
  getPartition : C → T → Bytes → Except String (Option PartitionData) × C
  iterPartitions : T → Except String (List (Bytes × PartitionData))

def splitChars (sep : Char) : List Char → Option (List Char × List Char)
  | [] => none
  | c :: cs => if c = sep then some ([], cs) else (splitChars sep cs).map fun p => (c :: p.1, p.2)

/-- The parts of a string before and after the first `sep` (`splitn(2, sep)`). -/
def splitOnce (sep : Char) (s : String) : Option (String × String) :=
  (splitChars sep s.toList).map fun p => (String.ofList p.1, String.ofList p.2)

/-- Keyspace and table as `flush_cf` reads them off the name of a column family. -/
def splitCfName (cfName : String) : String × String :=
  (splitOnce '.' cfName).getD (cfName, "unknown")

/-- The storage engine over SSTables `T` and a cache `C`. -/
structure Engine (T C : Type) where
  commitlog : CommitLog
  memtables : MemtableManager
  sstables : List T
  nextGeneration : Nat
  cache : C

/-- What a call meets on the disk. -/
structure Io where
  /-- The size of the raw directory of change data capture. -/
  cdcUsed : Nat
  writeFails : Bool
  /-- The order in which the file system lists the files of a directory. -/
  listing : List String → List String
  listing_perm : ∀ names, (listing names).Perm names

/-- Why a call on the engine fails. -/
inductive EngineError where
  | commitLog (e : CommitLogError)
  | sstable (e : String)
deriving Repr, DecidableEq

namespace Engine

variable {T C : Type}

/-- Merges the partition found in an SSTable into what newer sources have given. -/
def mergeRead (result : Option PartitionData) (p : PartitionData) : PartitionData :=
  match result with
  | some existing =>
    match p.tombstoneTimestamp, p.tombstoneLocalDeletionTime with
    | some ts, some ldt => (p.rowList.foldl .applyRow existing).setTombstone ts ldt
    | _, _ => p.rowList.foldl .applyRow existing
  | none => p

section

variable (layer : SSTableLayer T C)

/-- A table of another column family, a key that the filter excludes and an error all leave the
result as it is. -/
def readSSTable (keyspace table : String) (partitionKey : Bytes)
    (acc : Option PartitionData × C) (t : T) : Option PartitionData × C :=
  if layer.keyspace t = keyspace ∧ layer.table t = table ∧ layer.mightContainKey t partitionKey then
    match layer.getPartition acc.2 t partitionKey with
    | (.ok (some p), cache) => (some (mergeRead acc.1 p), cache)
    | (.ok none, cache) => (acc.1, cache)
    | (.error _, cache) => (acc.1, cache)
  else acc

/-- Reads a partition. A column family without memtable gets one, with the commit log bound 0. -/
def readPartition (e : Engine T C) (keyspace table : String) (partitionKey : Bytes) :
    Engine T C × Option PartitionData :=
  let (memtable, memtables) := e.memtables.getOrCreate (keyspace ++ "." ++ table) 0
  let (result, cache) := e.sstables.reverse.foldl (readSSTable layer keyspace table partitionKey)
    ((memtables.contents memtable.id).getPartition partitionKey, e.cache)
  ({ e with memtables := memtables, cache := cache }, result)

end

section

variable (layer : SSTableLayer T C)

/-- Writes a flushed memtable as the SSTable of the next generation, which is used up also where the
write fails. -/
def writeSSTable (e : Engine T C) (cfName : String) (partitions : List (Bytes × PartitionData))
    (io : Io) : Engine T C × Except EngineError Unit :=
  match if io.writeFails then .error "i/o error" else
      layer.create (splitCfName cfName).1 (splitCfName cfName).2 e.nextGeneration partitions with
  | .error err => ({ e with nextGeneration := e.nextGeneration + 1 }, .error (.sstable err))
  | .ok t =>
    ({ e with nextGeneration := e.nextGeneration + 1, sstables := e.sstables ++ [t] }, .ok ())

end

/-- Lets go of the commit log segments below every memtable. -/
def discardSegments (e : Engine T C) (io : Io) : Engine T C :=
  match e.memtables.lowestCommitlogBound with
  | some lowest =>
    if lowest > 1 then
      { e with
        commitlog := e.commitlog.discardCompletedSegments (lowest - 1)
          (io.listing e.commitlog.files.keys) }
    else e
  | none => e

def flushComplete (e : Engine T C) (memtableId : Nat) : Engine T C :=
  { e with memtables := e.memtables.flushComplete memtableId }

section

variable (layer : SSTableLayer T C)

def flushMemtable (e : Engine T C) (cfName : String) (old : Memtable) (io : Io) :
    Engine T C × Except EngineError Unit :=
  let partitions := (e.memtables.contents old.id).iterPartitions
  if partitions.isEmpty then (e.flushComplete old.id, .ok ())
  else
    match e.writeSSTable layer cfName partitions io with
    | (e, .error err) => (e, .error err)
    | (e, .ok _) => ((e.flushComplete old.id).discardSegments io, .ok ())

def flushCf (e : Engine T C) (cfName : String) (io : Io) : Engine T C × Except EngineError Unit :=
  match e.memtables.switchMemtable cfName e.commitlog.current.id with
  | (none, memtables) => ({ e with memtables := memtables }, .ok ())
  | (some old, memtables) => { e with memtables := memtables }.flushMemtable layer cfName old io

end

/-- Applies a mutation of commit log segment `segId` to the memtable of its column family. -/
def writeMutation (e : Engine T C) (m : Mutation) (segId : Nat) : Engine T C :=
  let (memtable, memtables) := e.memtables.getOrCreate m.cfName segId
  { e with memtables := memtables.write memtable m.partitionKey m.writes }

/-- Applies a mutation; if memory is short, its column family is flushed at once. -/
def applyMutation (layer : SSTableLayer T C) (ext : LogExternal) (e : Engine T C) (m : Mutation)
    (io : Io) : Engine T C × Except EngineError Unit :=
  match e.commitlog.append ext m io.cdcUsed with
  | (log, .error err) => ({ e with commitlog := log }, .error (.commitLog err))
  | (log, .ok (segId, _)) =>
    let e := { e with commitlog := log }.writeMutation m segId
    if e.memtables.shouldFlush then e.flushCf layer m.cfName io else (e, .ok ())

/-- An engine over open SSTables, with a memtable threshold (`StorageEngine::open`). -/
def openEngine (layer : SSTableLayer T C) (config : CommitLogConfig) (flushThreshold : Nat)
    (dir : ExtTreeMap String Bytes) (tables : List T) (cache : C) : Engine T C where
  commitlog := .openLog config dir
  memtables := .new flushThreshold
  sstables := tables.mergeSort fun t t' => layer.generation t ≤ layer.generation t'
  nextGeneration := (tables.map layer.generation).foldl max 0 + 1
  cache := cache

end Engine

end CassandraVerified.Storage
