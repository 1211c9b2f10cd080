import CassandraVerified.Lib.Trie
import CassandraVerified.Storage.Format.Big

/-!
# The BTI format

`sstable/bti.rs`: the data file and the filter are those of the Big format, and the index is a trie
over the bytes of the partition keys, which is written to `Partitions.db` in preorder. A reader
loads the whole trie. There is no key cache.
-/

namespace CassandraVerified.Storage

open Wire (beBytes Reader)

/-- A node: the offset of the key that ends here, and the nodes below by their byte
(`BTreeMap<u8, TrieNode>`). -/
abbrev TrieNode := Trie UInt8 Nat

/-- The children of a node. -/
abbrev TrieChildren := TrieForest UInt8 Nat

namespace TrieNode

/-- A node without an offset and without children. -/
def new : TrieNode := .empty

/-- Gives a key its offset. -/
def insert (key : Bytes) (offset : Nat) (n : TrieNode) : TrieNode := n.alter (fun _ => offset) key

/-- The offset of a key. -/
def lookup (key : Bytes) (n : TrieNode) : Option Nat := n.get key

/-- The trie of a list of keys with their offsets. -/
def ofEntries (entries : List (Bytes × Nat)) : TrieNode :=
  entries.foldl (fun root e => insert e.1 e.2 root) new

end TrieNode

def trieNodePayload : UInt8 := 1
def trieNodeBranch : UInt8 := 2
def trieNodeLeaf : UInt8 := 3

mutual

/-- A node that holds nothing is not written at all. -/
def TrieNode.serialize : TrieNode → Bytes
  | .node dataOffset children =>
    match dataOffset with
    | some offset =>
      if children.isEmpty then [trieNodeLeaf] ++ beBytes 8 offset
      else
        [trieNodePayload] ++ beBytes 8 offset ++
          (beBytes 2 children.toList.length ++ TrieChildren.serializeAll children)
    | none =>
      if children.isEmpty then []
      else [trieNodeBranch] ++
        (beBytes 2 children.toList.length ++ TrieChildren.serializeAll children)

/-- The children one after the other, each behind its byte. -/
def TrieChildren.serializeAll : TrieChildren → Bytes
  | .nil => []
  | .cons byte child rest => [byte] ++ TrieNode.serialize child ++ TrieChildren.serializeAll rest

end

/-- Reads a trie of at most `depth` levels. -/
def TrieNode.deserializeN : (depth : Nat) → FileReader TrieNode
  | 0 => throw .unexpectedEof
  | depth + 1 => do
    let nodeType ← readU8
    let readChildren : FileReader TrieChildren := do
      let count ← readUInt 2
      let children ← Reader.times (do
        let byte ← readU8
        let child ← deserializeN depth
        return (byte, child)) count
      return .ofList children
    if nodeType = trieNodeLeaf then
      let offset ← readUInt 8
      return .node (some offset) .nil
    else if nodeType = trieNodePayload then
      let offset ← readUInt 8
      let children ← readChildren
      return .node (some offset) children
    else if nodeType = trieNodeBranch then
      let children ← readChildren
      return .node none children
    else throw (.invalidData ("invalid trie node type: " ++ hex nodeType))

/-- Every node takes at least a byte, so that there are no more levels than bytes. -/
def TrieNode.deserialize : FileReader TrieNode := do
  let rest ← get
  deserializeN (rest.length + 1)

/-- `b"BTRI"`. -/
def btiTrieMagic : Bytes := [0x42, 0x54, 0x52, 0x49]

def btiTrieVersion : UInt8 := 1

/-- `Partitions.db`. -/
def partitionsFile (root : TrieNode) : Bytes := btiTrieMagic ++ [btiTrieVersion] ++ root.serialize

def loadTrieIndex (file : Bytes) : Except ReadError TrieNode :=
  let reader : FileReader TrieNode := do
    let m ← readExact 4
    if m ≠ btiTrieMagic then throw (.invalidData "invalid Partitions.db magic")
    else
      let version ← readU8
      if version ≠ btiTrieVersion then
        throw (.invalidData ("unsupported trie version: " ++ toString version.toNat))
      else TrieNode.deserialize
  (reader.run file).map Prod.fst

/-- The files of an SSTable. -/
structure BtiFiles where
  data : Bytes
  partitions : Bytes
  filter : Bytes

/-- `BtiWriter::write`. -/
def writeBti (env : WriterEnv) (partitions : Source) : Except String BtiFiles :=
  if (dataFile env.crc32 partitions).length < 2 ^ 64 then
    .ok
      { data := dataFile env.crc32 partitions
        partitions := partitionsFile (.ofEntries (dataOffsets dataHeader.length partitions))
        filter := (BloomFilter.ofKeys env.sizing (partitions.map Prod.fst)).file }
  else .error "file too large"

/-- An open SSTable. -/
structure BtiReader where
  keyspace : String
  table : String
  generation : Nat
  data : Bytes
  trie : TrieNode
  bloom : BloomFilter

namespace BtiReader

/-- `BtiReader::open`. -/
def openFiles (keyspace table : String) (generation : Nat) (files : BtiFiles) :
    Except ReadError BtiReader :=
  match loadTrieIndex files.partitions with
  | .error e => .error e
  | .ok trie =>
    match BloomFilter.load files.filter with
    | .error e => .error e
    | .ok bloom => .ok { keyspace, table, generation, data := files.data, trie, bloom }

def mightContainKey (r : BtiReader) (partitionKey : Bytes) : Bool :=
  r.bloom.mightContain partitionKey

/-- Reads a single partition: the filter, then the trie. -/
def getPartition (r : BtiReader) (partitionKey : Bytes) :
    Except ReadError (Option PartitionData) :=
  if r.mightContainKey partitionKey then
    match r.trie.lookup partitionKey with
    | none => .ok none
    | some offset => readPartitionAt "unexpected marker: " r.data offset partitionKey
  else .ok none

def iterPartitions (r : BtiReader) : Except ReadError Source := scanPartitions r.data

end BtiReader

end CassandraVerified.Storage
