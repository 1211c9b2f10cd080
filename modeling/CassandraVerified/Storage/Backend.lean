import CassandraVerified.Lib.Trie
import CassandraVerified.Storage.Memtable

/-!
# The backends of a memtable

`create_backend` of `memtable/mod.rs`: the ordered map that is the default (`MemtableData`), the
trie of `memtable/trie.rs`, and the sharded memtable of `memtable/shard.rs` over the generic trie of
`tries/`, which sends a partition to the shard that its token falls into.
-/

namespace CassandraVerified.Storage

open Std (ExtTreeMap)

/-- The operations of a backend (`trait MemtableBackend`). -/
class MemtableBackend (S : Type) where
  apply : S → Bytes → Row → S
  setPartitionTombstone : S → Bytes → Int64 → Int32 → S
  getPartition : S → Bytes → Option PartitionData
  iterPartitions : S → List (Bytes × PartitionData)
  memoryUsage : S → Nat
  partitionCount : S → Nat

instance : MemtableBackend MemtableData where
  apply := MemtableData.apply
  setPartitionTombstone := MemtableData.setPartitionTombstone
  getPartition := MemtableData.getPartition
  iterPartitions := MemtableData.iterPartitions
  memoryUsage d := d.approxSize
  partitionCount d := d.partitions.size

abbrev PartitionTrie := Trie UInt8 PartitionData

namespace PartitionTrie

def insert (t : PartitionTrie) (key : Bytes) (row : Row) : PartitionTrie :=
  t.alter (fun data => (data.getD .empty).applyRow row) key

def setTombstone (t : PartitionTrie) (key : Bytes) (timestamp : Int64) (localDeletionTime : Int32) :
    PartitionTrie :=
  t.alter (fun data => (data.getD .empty).setTombstone timestamp localDeletionTime) key

/-- A depth-first walk. -/
def iterAll (t : PartitionTrie) : List (Bytes × PartitionData) := t.collect []

def countPartitions (t : PartitionTrie) : Nat := t.size

end PartitionTrie

/-- A memtable that is a trie. -/
structure TrieMemtable where
  root : PartitionTrie
  approxSize : Nat

namespace TrieMemtable

def new : TrieMemtable := ⟨.empty, 0⟩

instance : MemtableBackend TrieMemtable where
  apply m partitionKey row := ⟨m.root.insert partitionKey row, m.approxSize + estimateRowSize row⟩
  setPartitionTombstone m partitionKey timestamp localDeletionTime :=
    { m with root := m.root.setTombstone partitionKey timestamp localDeletionTime }
  getPartition m partitionKey := m.root.get partitionKey
  iterPartitions m := m.root.iterAll
  memoryUsage m := m.approxSize
  partitionCount m := m.root.countPartitions

end TrieMemtable

/-- `InMemoryTrie<T>` of `tries/in_memory.rs`. -/
structure InMemoryTrie (T : Type) where
  root : Trie UInt8 T
  entryCount : Nat

namespace InMemoryTrie

variable {T : Type}

def new : InMemoryTrie T := ⟨.empty, 0⟩

def get (t : InMemoryTrie T) (key : Bytes) : Option T := t.root.get key

def apply (t : InMemoryTrie T) (key : Bytes) (mergeFn : Option T → T) : InMemoryTrie T where
  root := t.root.alter mergeFn key
  entryCount := if (t.root.get key).isNone then t.entryCount + 1 else t.entryCount

def iter (t : InMemoryTrie T) : List (Bytes × T) := t.root.collect []

end InMemoryTrie

/-- The backend over it (`tries/memtable_trie.rs`). -/
structure MemtableTrie where
  data : InMemoryTrie PartitionData
  approxSize : Nat

namespace MemtableTrie

def new : MemtableTrie := ⟨.new, 0⟩

instance : MemtableBackend MemtableTrie where
  apply m partitionKey row :=
    { data := m.data.apply partitionKey fun existing => (existing.getD .empty).applyRow row
      approxSize := m.approxSize + estimateRowSize row }
  setPartitionTombstone m partitionKey timestamp localDeletionTime :=
    { m with
      data := m.data.apply partitionKey fun existing =>
        (existing.getD .empty).setTombstone timestamp localDeletionTime }
  getPartition m partitionKey := m.data.get partitionKey
  iterPartitions m := m.data.iter
  memoryUsage m := m.approxSize
  partitionCount m := m.data.entryCount

end MemtableTrie

/-- The last token of every shard but the last. -/
structure ShardBoundaries where
  shardCount : Nat
  boundaries : List Int64

namespace ShardBoundaries

/-- Shards of equal size. -/
def new (shardCount : Nat) : ShardBoundaries where
  shardCount := shardCount
  boundaries := (List.range' 1 (shardCount - 1)).map fun (i : Nat) =>
    let range := Int64.maxValue.toInt - Int64.minValue.toInt
    Int64.ofInt (Int64.minValue.toInt + range * i / shardCount)

/-- The first shard whose last token is not before the token. -/
def shardForToken (b : ShardBoundaries) (token : Int64) : Nat :=
  (b.boundaries.findIdx? (token ≤ ·)).getD (b.shardCount - 1)

end ShardBoundaries

/-- Backends that share the tokens among them. `new` never makes an index past the last shard. -/
structure ShardedMemtable (token : Bytes → Int64) (S : Type) where
  shards : List S
  boundaries : ShardBoundaries

namespace ShardedMemtable

variable {token : Bytes → Int64} {S : Type}

def new (shards : List S) : ShardedMemtable token S := ⟨shards, .new shards.length⟩

def shardIndex (m : ShardedMemtable token S) (partitionKey : Bytes) : Nat :=
  m.boundaries.shardForToken (token partitionKey)

/-- The shards are put together and sorted by key. -/
instance [MemtableBackend S] : MemtableBackend (ShardedMemtable token S) where
  apply m partitionKey row :=
    { m with
      shards := m.shards.modify (m.shardIndex partitionKey)
        (MemtableBackend.apply · partitionKey row) }
  setPartitionTombstone m partitionKey timestamp localDeletionTime :=
    { m with
      shards := m.shards.modify (m.shardIndex partitionKey)
        (MemtableBackend.setPartitionTombstone · partitionKey timestamp localDeletionTime) }
  getPartition m partitionKey :=
    m.shards[m.shardIndex partitionKey]?.bind (MemtableBackend.getPartition · partitionKey)
  iterPartitions m :=
    (m.shards.flatMap MemtableBackend.iterPartitions).mergeSort fun a b => (compare a.1 b.1).isLE
  memoryUsage m := (m.shards.map MemtableBackend.memoryUsage).sum
  partitionCount m := (m.shards.map MemtableBackend.partitionCount).sum

end ShardedMemtable

/-- The kinds of memtables. -/
inductive MemtableType where
  | skipList
  | trie
  | shardedTrie
deriving Repr, DecidableEq

/-- What `create_backend` makes of a type. -/
def MemtableType.Backend (token : Bytes → Int64) : MemtableType → Type
  | skipList => MemtableData
  | trie => TrieMemtable
  | shardedTrie => ShardedMemtable token MemtableTrie

instance (token : Bytes → Int64) : (t : MemtableType) → MemtableBackend (t.Backend token)
  | .skipList => inferInstanceAs (MemtableBackend MemtableData)
  | .trie => inferInstanceAs (MemtableBackend TrieMemtable)
  | .shardedTrie => inferInstanceAs (MemtableBackend (ShardedMemtable token MemtableTrie))

def createBackend (token : Bytes → Int64) : (t : MemtableType) → t.Backend token
  | .skipList => MemtableData.empty
  | .trie => TrieMemtable.new
  | .shardedTrie => ShardedMemtable.new (List.replicate 4 MemtableTrie.new)

namespace MemtableBackend

variable {S S' : Type} [MemtableBackend S] [MemtableBackend S']

/-- A write to a partition: `apply` of a row or `set_partition_tombstone`. -/
def write (s : S) (partitionKey : Bytes) : Write → S
  | .row row => apply s partitionKey row
  | .tombstone timestamp localDeletionTime =>
    setPartitionTombstone s partitionKey timestamp localDeletionTime

def run (s : S) (calls : List (Bytes × Write)) : S :=
  calls.foldl (fun s call => write s call.1 call.2) s

def KeysAscend (partitions : List (Bytes × PartitionData)) : Prop :=
  partitions.Pairwise fun a b => compare a.1 b.1 = .lt

/-- No read tells two backends apart, and both iterate in key order. -/
structure SameReads (s : S) (s' : S') : Prop where
  getPartition : ∀ key, getPartition s key = getPartition s' key
  iterPartitions : iterPartitions s = iterPartitions s'
  ascending : KeysAscend (MemtableBackend.iterPartitions s)

end MemtableBackend

end CassandraVerified.Storage
