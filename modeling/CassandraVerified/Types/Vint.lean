import CassandraVerified.Lib.Wire

/-!
# Variable-length integers

`vint.rs`: signed integers are zigzag-encoded; the leading bits of the first byte give the number of
bytes. `varint.rs` of `cassandra-io` writes the same format into a buffer, and reads it from a
buffer or a stream.
-/

namespace CassandraVerified.Types

open Wire (Bytes beBytes beNat)

def zigzagEncode (v : Int64) : UInt64 := ((v <<< 1) ^^^ (v >>> 63)).toUInt64

def zigzagDecode (v : UInt64) : Int64 := (v >>> 1).toInt64 ^^^ -(v &&& 1).toInt64

def computeUvintSize (v : UInt64) : Nat :=
  if v.toNat < 2 ^ 7 then 1
  else if v.toNat < 2 ^ 14 then 2
  else if v.toNat < 2 ^ 21 then 3
  else if v.toNat < 2 ^ 28 then 4
  else if v.toNat < 2 ^ 35 then 5
  else if v.toNat < 2 ^ 42 then 6
  else if v.toNat < 2 ^ 49 then 7
  else if v.toNat < 2 ^ 56 then 8
  else 9

/-- The first byte: `extra` leading ones, a zero, and the high bits of the value. -/
def uvintMarker (extra : Nat) (highBits : UInt8) : UInt8 :=
  ((0xFF : UInt8) <<< UInt8.ofNat (8 - extra)) ||| highBits

def encodeUvint (v : UInt64) : Bytes :=
  let size := computeUvintSize v
  if size = 1 then [v.toUInt8]
  else if size = 9 then 0xFF :: beBytes 8 v.toNat
  else
    let extra := size - 1
    uvintMarker extra (UInt8.ofNat (v.toNat >>> (8 * extra))) :: beBytes extra v.toNat

/-- The number of leading ones among the `n` bits from the highest of them downwards. -/
def leadingOnes (b : UInt8) : Nat → Nat
  | 0 => 0
  | n + 1 => if b.toNat.testBit n then 1 + leadingOnes b n else 0

/-- The value, and the number of bytes that were consumed; `none` if the bytes run out. -/
def decodeUvint (data : Bytes) : Option (UInt64 × Nat) :=
  match data with
  | [] => none
  | first :: rest =>
    let extra := leadingOnes first 8
    let size := extra + 1
    if extra = 8 then
      if data.length < 9 then none else some (UInt64.ofNat (beNat (rest.take 8)), 9)
    else if data.length < size then none
    else
      let mask := ((1 : UInt8) <<< UInt8.ofNat (8 - size)) - 1
      some (UInt64.ofNat (beNat ((first &&& mask) :: rest.take extra)), size)

def encodeVint (v : Int64) : Bytes := encodeUvint (zigzagEncode v)

def decodeVint (data : Bytes) : Option (Int64 × Nat) :=
  (decodeUvint data).map fun r => (zigzagDecode r.1, r.2)

namespace Varint

def unsignedVintSize (value : UInt64) : Nat :=
  -- 64 less the leading zeros
  let magnitude := value.toNat.size
  if magnitude ≤ 7 then 1
  else if magnitude ≤ 14 then 2
  else if magnitude ≤ 21 then 3
  else if magnitude ≤ 28 then 4
  else if magnitude ≤ 35 then 5
  else if magnitude ≤ 42 then 6
  else if magnitude ≤ 49 then 7
  else if magnitude ≤ 56 then 8
  else 9

/-- The leading zeros of the inverted byte. -/
def extraBytesForFirst (firstByte : UInt8) : Nat := 8 - (~~~firstByte).toNat.size

/-- What is written to the buffer. -/
def encodeUnsignedVint (value : UInt64) : Bytes :=
  let size := unsignedVintSize value
  if size = 1 then [value.toUInt8]
  else if size = 9 then 0xFF :: beBytes 8 value.toNat
  else
    let extra := size - 1
    let dataBitsInFirst := 8 - extra - 1
    let ones : UInt8 := ~~~((1 <<< UInt8.ofNat (8 - extra)) - 1)
    let firstData := UInt8.ofNat (value.toNat >>> (8 * extra)) &&&
      ((1 <<< UInt8.ofNat dataBitsInFirst) - 1)
    (ones ||| firstData) :: beBytes extra value.toNat

/-- The value and the number of bytes; `none` if an index is out of bounds. A buffer that ends
within two to eight bytes is read as it is. -/
def decodeUnsignedVint : Bytes → Option (UInt64 × Nat)
  | [] => none
  | first :: rest =>
    let extra := extraBytesForFirst first
    if extra = 0 then some (first.toUInt64, 1)
    else if extra ≥ 8 then
      if rest.length < 8 then none else some (UInt64.ofNat (beNat (rest.take 8)), 9)
    else
      let mask := (1 <<< UInt8.ofNat (8 - extra - 1)) - 1
      some (UInt64.ofNat (beNat ((first &&& mask) :: rest.take extra)), extra + 1)

/-- The value, and what is left in the stream. -/
def readUnsignedVint : Bytes → Option (UInt64 × Bytes)
  | [] => none
  | first :: rest =>
    let extra := extraBytesForFirst first
    if extra = 0 then some (first.toUInt64, rest)
    else if extra ≥ 8 then
      if rest.length < 8 then none else some (UInt64.ofNat (beNat (rest.take 8)), rest.drop 8)
    else if rest.length < extra then none
    else
      let mask := (1 <<< UInt8.ofNat (8 - extra - 1)) - 1
      some (UInt64.ofNat (beNat ((first &&& mask) :: rest.take extra)), rest.drop extra)

def encodeVint (value : Int64) : Bytes := encodeUnsignedVint (zigzagEncode value)

def decodeVint (buf : Bytes) : Option (Int64 × Nat) :=
  (decodeUnsignedVint buf).map fun r => (zigzagDecode r.1, r.2)

def readVint (stream : Bytes) : Option (Int64 × Bytes) :=
  (readUnsignedVint stream).map fun r => (zigzagDecode r.1, r.2)

end Varint

/-- How an integer is encoded, by both codings. -/
structure VintExact (v : Int64) : Prop where
  decodes : ∀ suffix, decodeVint (encodeVint v ++ suffix) = some (v, (encodeVint v).length)
  /-- No bytes from which the decoder gets the value are fewer. -/
  shortest : ∀ data size, decodeUvint data = some (zigzagEncode v, size) →
    (encodeVint v).length ≤ size
  truncated : ∀ bytes, bytes <+: encodeVint v → bytes ≠ encodeVint v → decodeVint bytes = none
  sameBytes : Varint.encodeVint v = encodeVint v

/-- How bytes are decoded, by both codings. -/
structure DecodesAlike (first : UInt8) (rest : Bytes) : Prop where
  /-- The decoder does not read past the length that the first byte announces. -/
  announced : decodeVint (first :: rest) = decodeVint (first :: rest.take (leadingOnes first 8))
  /-- A complete encoding has the same value from the buffer and from the stream. -/
  sameValue : ∀ v size, decodeVint (first :: rest) = some (v, size) →
    Varint.decodeVint (first :: rest) = some (v, size) ∧
      Varint.readVint (first :: rest) = some (v, (first :: rest).drop size)

end CassandraVerified.Types
