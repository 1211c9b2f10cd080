import CassandraVerified.Storage.Format.Data

/-!
# The Bloom filter

`sstable/bloom.rs`: the filter of an SSTable's partition keys, with double hashing over a murmur3
hash of 128 bits. How many bits and hash functions a filter gets is computed with floating point
numbers in the source; `BloomSizing` holds the results of these computations.
-/

namespace CassandraVerified.Storage

open Wire (beBytes Reader)

/-- A little-endian word of at most 8 bytes. -/
def leWord (bs : Bytes) : UInt64 := bs.foldr (fun b acc => b.toUInt64 ||| acc <<< 8) 0

def rotateLeft (x : UInt64) (n : UInt64) : UInt64 := x <<< n ||| x >>> (64 - n)

def fmix64 (k : UInt64) : UInt64 :=
  let k := k ^^^ k >>> 33
  let k := k * 0xff51afd7ed558ccd
  let k := k ^^^ k >>> 33
  let k := k * 0xc4ceb9fe1a85ec53
  k ^^^ k >>> 33

def murmurC1 : UInt64 := 0x87c37b91114253d5
def murmurC2 : UInt64 := 0x4cf5ad432745937f

def mixK1 (k : UInt64) : UInt64 := rotateLeft (k * murmurC1) 31 * murmurC2
def mixK2 (k : UInt64) : UInt64 := rotateLeft (k * murmurC2) 33 * murmurC1

def murmurChunk (h : UInt64 × UInt64) (chunk : Bytes) : UInt64 × UInt64 :=
  let h1 := h.1 ^^^ mixK1 (leWord (chunk.take 8))
  let h1 := (rotateLeft h1 27 + h.2) * 5 + 0x52dce729
  let h2 := h.2 ^^^ mixK2 (leWord (chunk.drop 8))
  let h2 := (rotateLeft h2 31 + h1) * 5 + 0x38495ab5
  (h1, h2)

def murmurChunks (key : Bytes) : Nat → UInt64 × UInt64
  | 0 => (0, 0)
  | n + 1 => murmurChunk (murmurChunks key n) ((key.drop (16 * n)).take 16)

/-- The two halves of the hash. A tail of at most 8 bytes leaves the second half alone, and an empty
one both. -/
def murmur3Hash128 (key : Bytes) : UInt64 × UInt64 :=
  let chunks := key.length / 16
  let tail := key.drop (16 * chunks)
  let h := murmurChunks key chunks
  let h2 := if tail.length ≥ 9 then h.2 ^^^ mixK2 (leWord (tail.drop 8)) else h.2
  let h1 := if tail.isEmpty then h.1 else h.1 ^^^ mixK1 (leWord (tail.take 8))
  let h1 := h1 ^^^ UInt64.ofNat key.length
  let h2 := h2 ^^^ UInt64.ofNat key.length
  let h1 := h1 + h2
  let h2 := h2 + h1
  let h1 := fmix64 h1
  let h2 := fmix64 h2
  let h1 := h1 + h2
  (h1, h2 + h1)

/-- A Bloom filter. -/
structure BloomFilter where
  bits : List UInt64
  numHashFunctions : Nat
  bitCount : Nat
deriving Repr, DecidableEq

/-- What the floating point formulas for `n` keys at a false positive rate of 0.01 give, before
clamping. -/
structure BloomSizing where
  numBits : Nat → Nat
  numHashes : Nat → Nat
  /-- About 9.6 bits for each key. -/
  numBits_le : ∀ n, numBits n ≤ 10 * n + 1

def optimalNumBits (sizing : BloomSizing) (n : Nat) : Nat := max (sizing.numBits (max n 1)) 64

def optimalNumHashes (sizing : BloomSizing) (n : Nat) : Nat :=
  min (max (sizing.numHashes (max n 1)) 1) 30

namespace BloomFilter

def new (sizing : BloomSizing) (numElements : Nat) : BloomFilter where
  bits := List.replicate ((optimalNumBits sizing numElements + 63) / 64) 0
  numHashFunctions := optimalNumHashes sizing numElements
  bitCount := optimalNumBits sizing numElements

def getBitIndex (f : BloomFilter) (h : UInt64 × UInt64) (i : Nat) : Nat :=
  ((h.1 + UInt64.ofNat i * h.2) &&& 0x7FFFFFFFFFFFFFFF).toNat % f.bitCount

/-- Sets a bit, if there is a word for it. -/
def setBit (f : BloomFilter) (bit : Nat) : BloomFilter :=
  { f with bits := f.bits.modify (bit / 64) (· ||| 1 <<< UInt64.ofNat (bit % 64)) }

def hasBit (f : BloomFilter) (bit : Nat) : Bool :=
  f.bits[bit / 64]?.any fun word => word &&& 1 <<< UInt64.ofNat (bit % 64) ≠ 0

/-- `add` with any function in the place of murmur3. -/
def addWith (hash : Bytes → UInt64 × UInt64) (f : BloomFilter) (key : Bytes) : BloomFilter :=
  (List.range f.numHashFunctions).foldl (fun g i => g.setBit (f.getBitIndex (hash key) i)) f

/-- `might_contain` with any function in the place of murmur3. -/
def mightContainWith (hash : Bytes → UInt64 × UInt64) (f : BloomFilter) (key : Bytes) : Bool :=
  (List.range f.numHashFunctions).all fun i => f.hasBit (f.getBitIndex (hash key) i)

/-- Sets the bits of a key. -/
def add (f : BloomFilter) (key : Bytes) : BloomFilter := f.addWith murmur3Hash128 key

/-- All bits of a key are set, perhaps by others. -/
def mightContain (f : BloomFilter) (key : Bytes) : Bool := f.mightContainWith murmur3Hash128 key

/-- A filter as `new` leaves it, of any size it may come to. -/
def ofSize (bitCount numHashFunctions : Nat) : BloomFilter where
  bits := List.replicate ((bitCount + 63) / 64) 0
  numHashFunctions
  bitCount

def ofKeys (sizing : BloomSizing) (keys : List Bytes) : BloomFilter :=
  keys.foldl add (new sizing (max keys.length 1))

/-- `b"SSFL"`. -/
def magic : Bytes := [0x53, 0x53, 0x46, 0x4C]

def serialize (f : BloomFilter) : Bytes :=
  beBytes 4 f.numHashFunctions ++ beBytes 8 f.bitCount ++ beBytes 4 f.bits.length ++
    f.bits.flatMap fun word => beBytes 8 word.toNat

def deserialize : FileReader BloomFilter := do
  let numHashFunctions ← readUInt 4
  let bitCount ← readUInt 8
  let wordCount ← readUInt 4
  let words ← Reader.times (readUInt 8) wordCount
  return { bits := words.map UInt64.ofNat, numHashFunctions, bitCount }

/-- `Filter.db`. -/
def file (f : BloomFilter) : Bytes := magic ++ f.serialize

def load (file : Bytes) : Except ReadError BloomFilter :=
  let reader : FileReader BloomFilter := do
    let m ← readExact 4
    if m ≠ magic then throw (.invalidData "invalid Filter.db magic") else deserialize
  (reader.run file).map Prod.fst

end BloomFilter

end CassandraVerified.Storage
