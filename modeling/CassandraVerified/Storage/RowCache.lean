import CassandraVerified.Lib.Lru
import CassandraVerified.Storage.CompactGroup

/-!
# The row cache

`cache/row_cache.rs` and the engine with a row cache set (`StorageEngine::set_row_cache`). Reads put
the partitions that they have merged into the cache, and take one from there when the memtable has
nothing for its key. The hash by which the cache tells tables apart is a parameter.
-/

namespace CassandraVerified.Storage

variable [Lru]

/-- The counters of hits and misses are left out. -/
structure RowCache where
  enabled : Bool
  cache : Lru.Cache (UInt64 × Bytes) PartitionData

namespace RowCache

/-- With a capacity of 0 the cache is disabled. -/
def new (maxEntries : Nat) : RowCache := ⟨0 < maxEntries, Lru.new (max maxEntries 1)⟩

def get (c : RowCache) (tableHash : UInt64) (partitionKey : Bytes) :
    Option PartitionData × RowCache :=
  if c.enabled then
    let (found, cache) := Lru.get c.cache (tableHash, partitionKey)
    (found, { c with cache := cache })
  else (none, c)

def put (c : RowCache) (tableHash : UInt64) (partitionKey : Bytes) (data : PartitionData) :
    RowCache :=
  if c.enabled then { c with cache := Lru.put c.cache (tableHash, partitionKey) data } else c

def invalidatePartition (c : RowCache) (tableHash : UInt64) (partitionKey : Bytes) : RowCache :=
  if c.enabled then { c with cache := Lru.eraseIf c.cache (· = (tableHash, partitionKey)) } else c

def invalidateTable (c : RowCache) (tableHash : UInt64) : RowCache :=
  if c.enabled then { c with cache := Lru.eraseIf c.cache (·.1 = tableHash) } else c

end RowCache

/-- The SSTables of a data directory. -/
structure Disk where
  tables : List SSTable
  /-- The generations of those that cannot be opened. -/
  broken : List Nat

namespace Store

/-- Discards the memtable and the SSTables of a table (`truncate_table`). -/
def truncateTable (e : Store) (keyspace table : String) : Store :=
  let memtables :=
    match e.memtables.switchMemtable (keyspace ++ "." ++ table) e.commitlog.current.id with
    | (some old, memtables) => memtables.flushComplete old.id
    | (none, memtables) => memtables
  { e with
    memtables := memtables
    sstables := e.sstables.filter fun t => ¬ (t.keyspace = keyspace ∧ t.table = table) }

/-- Replaces the open SSTables by those on disk (`reload_sstables_from_disk`). -/
def reloadSSTables (e : Store) (disk : Disk) : Store :=
  { e with
    sstables := disk.tables.mergeSort fun t t' => t.generation ≤ t'.generation
    nextGeneration := (disk.tables.map SSTable.generation ++ disk.broken).foldl max 0 + 1 }

end Store

/-- An engine with a row cache, if it has one. -/
structure CachedStore where
  store : Store
  rowCache : Option RowCache

namespace CachedStore

abbrev TableHash := (keyspace table : String) → UInt64

section

variable (tableHash : TableHash) (ext : LogExternal)

/-- What is found is put into the cache, also where some of it comes from the memtable. -/
def readThrough (store : Store) (rowCache : Option RowCache) (keyspace table : String)
    (partitionKey : Bytes) : CachedStore × Option PartitionData :=
  match store.readPartition contentLayer keyspace table partitionKey with
  | (store, some data) =>
    (⟨store, rowCache.map (·.put (tableHash keyspace table) partitionKey data)⟩, some data)
  | (store, none) => (⟨store, rowCache⟩, none)

/-- A read. The row cache is asked only when the memtable has nothing. -/
def readPartition (s : CachedStore) (keyspace table : String) (partitionKey : Bytes) :
    CachedStore × Option PartitionData :=
  let (memtable, memtables) := s.store.memtables.getOrCreate (keyspace ++ "." ++ table) 0
  match (memtables.contents memtable.id).getPartition partitionKey, s.rowCache with
  | none, some cache =>
    match cache.get (tableHash keyspace table) partitionKey with
    | (some cached, cache) => (⟨{ s.store with memtables := memtables }, some cache⟩, some cached)
    | (none, cache) => readThrough tableHash s.store (some cache) keyspace table partitionKey
  | _, rowCache => readThrough tableHash s.store rowCache keyspace table partitionKey

def flushCf (s : CachedStore) (cfName : String) (io : Io) : CachedStore × Except EngineError Unit :=
  let (store, result) := s.store.flushCf contentLayer cfName io
  (⟨store, s.rowCache⟩, result)

/-- The partition leaves the cache before the flush that a mutation may bring about. -/
def applyMutation (s : CachedStore) (m : Mutation) (io : Io) :
    CachedStore × Except EngineError Unit :=
  match s.store.commitlog.append ext m io.cdcUsed with
  | (log, .error err) =>
    (⟨{ s.store with commitlog := log }, s.rowCache⟩, .error (.commitLog err))
  | (log, .ok (segId, _)) =>
    let store := { s.store with commitlog := log }.writeMutation m segId
    let s : CachedStore :=
      ⟨store, s.rowCache.map (·.invalidatePartition (tableHash m.keyspace m.table) m.partitionKey)⟩
    if store.memtables.shouldFlush then s.flushCf m.cfName io else (s, .ok ())

def truncateTable (s : CachedStore) (keyspace table : String) : CachedStore :=
  ⟨s.store.truncateTable keyspace table,
    s.rowCache.map (·.invalidateTable (tableHash keyspace table))⟩

/-- A call of the engine, with what it meets outside. -/
inductive Op where
  | applyMutation (m : Mutation) (io : Io)
  | readPartition (keyspace table : String) (partitionKey : Bytes)
  | flushCf (keyspace table : String) (io : Io)
  | compactGroup (options : CompactionOptions) (nowSeconds : Int32) (fails : Nat → Bool)
      (groupIds : List Nat)
  /-- Also where a file cannot be removed, the table is truncated. -/
  | truncateTable (keyspace table : String)
  /-- `none` if the snapshot cannot be restored or the SSTables not be listed. -/
  | restoreSnapshot (disk : Option Disk)
  | refresh (disk : Option Disk)
  /-- As many generations are used up as SSTables were found to import. -/
  | importSSTables (found : Nat) (disk : Option Disk)

def step (s : CachedStore) : Op → CachedStore × List (Option PartitionData)
  | .applyMutation m io => ((s.applyMutation tableHash ext m io).1, [])
  | .readPartition keyspace table partitionKey =>
    let (s, result) := s.readPartition tableHash keyspace table partitionKey
    (s, [result])
  | .flushCf keyspace table io => ((s.flushCf (keyspace ++ "." ++ table) io).1, [])
  | .compactGroup options nowSeconds fails groupIds =>
    (⟨(s.store.compactGroup contentLayer options nowSeconds fails groupIds).1, s.rowCache⟩, [])
  | .truncateTable keyspace table => (s.truncateTable tableHash keyspace table, [])
  | .restoreSnapshot disk | .refresh disk =>
    (⟨disk.elim s.store s.store.reloadSSTables, s.rowCache⟩, [])
  | .importSSTables found disk =>
    let store := { s.store with nextGeneration := s.store.nextGeneration + found }
    (⟨disk.elim store store.reloadSSTables, s.rowCache⟩, [])

def results (s : CachedStore) : List Op → List (Option PartitionData)
  | [] => []
  | op :: ops => (s.step tableHash ext op).2 ++ results (s.step tableHash ext op).1 ops

end

/-- What the SSTables of a table hold of a partition, the oldest first. -/
def partitionsOf (tables : List SSTable) (keyspace table : String) (partitionKey : Bytes) :
    List PartitionData :=
  tables.filterMap fun t =>
    if t.keyspace = keyspace ∧ t.table = table then t.getPartition partitionKey else none

/-- The tables that are read: no name of a keyspace has a dot, and their hashes differ. -/
structure Apart (tableHash : TableHash) (tables : List (String × String)) : Prop where
  noDot : ∀ t ∈ tables, '.' ∉ t.1.toList
  hashes : ∀ t ∈ tables, ∀ t' ∈ tables, tableHash t.1 t.2 = tableHash t'.1 t'.2 → t = t'

section

variable (tableHash : TableHash) (tables : List (String × String)) (s : CachedStore)

/-- The partition is of a table that is read, and is in the cache. -/
def Caches (keyspace table : String) (partitionKey : Bytes) : Prop :=
  (keyspace, table) ∈ tables ∧ ∃ c ∈ s.rowCache, c.enabled = true ∧
    ∃ p, ((tableHash keyspace table, partitionKey), p) ∈ c.cache.entries

/-- The SSTables on disk hold of each cached partition what the open ones hold. -/
def SameOnDisk (disk : Disk) : Prop :=
  ∀ keyspace table k, s.Caches tableHash tables keyspace table k →
    partitionsOf (disk.tables.mergeSort fun t t' => t.generation ≤ t'.generation) keyspace table k =
      partitionsOf s.store.sstables keyspace table k

/-- The call leaves what is in the cache as it is, or takes it out of the cache. -/
def Harmless : Op → Prop
  | .applyMutation m io => '.' ∉ m.keyspace.toList ∧ (io.writeFails = true →
      ∀ k, s.Caches tableHash tables m.keyspace m.table k → k ≠ m.partitionKey →
        (s.store.memtables.activeData m.cfName).getPartition k = none)
  | .readPartition keyspace table _ => (keyspace, table) ∈ tables
  | .flushCf keyspace table io => '.' ∉ keyspace.toList ∧ (io.writeFails = true →
      ∀ k, s.Caches tableHash tables keyspace table k →
        (s.store.memtables.activeData (keyspace ++ "." ++ table)).getPartition k = none)
  | .compactGroup _ _ _ groupIds => ∀ keyspace table k, s.Caches tableHash tables keyspace table k →
      ∀ t ∈ s.store.sstables, t.generation ∈ groupIds → t.getPartition k = none
  | .truncateTable keyspace _ => '.' ∉ keyspace.toList
  | .restoreSnapshot disk | .refresh disk | .importSSTables _ disk =>
    ∀ d ∈ disk, s.SameOnDisk tableHash tables d

end

end CachedStore

end CassandraVerified.Storage
