import CassandraVerified.Lib.Checked
import CassandraVerified.Types.Value

/-!
# Decoding of CQL values

`codec.rs` and `vector.rs`: the decoder of untrusted bytes. Slices, additions and capacities are
checked operations here, so that a run shows whether it panics and what it asks the allocator for.
-/

namespace CassandraVerified.Types

open Wire (Bytes beNat)
open Checked (Run)
open Checked.Run (fail allocate addUsize mulU32 sliceFrom slice)

/-- Why a value is not read or written. -/
inductive CodecError
  | invalidLength (expected got : Nat)
  | tooShort (minimum got : Nat)
  | trailingBytes (consumed total : Nat)
  | outOfRange (typeName : String) (value : Int64)
  | invalidUtf8
  | unsupportedType (name : String)
  | invalidVector (message : String)
deriving Repr, DecidableEq

abbrev Decoding := Run CodecError

def readBe (w : Nat) (data : Bytes) : Decoding Nat := do
  let bytes ← slice data 0 w
  return beNat bytes

def readI32 (data : Bytes) : Decoding Int32 := return (UInt32.ofNat (← readBe 4 data)).toInt32

def readI64 (data : Bytes) : Decoding Int64 := return (UInt64.ofNat (← readBe 8 data)).toInt64

/-- An `i32` as a `usize`: the sign is extended. -/
def asUsize (n : Int32) : Nat := n.toInt64.toUInt64.toNat

/-- Checks the length of the data. -/
def ck (data : Bytes) (expected : Nat) : Decoding Unit :=
  if data.length ≠ expected then fail (.invalidLength expected data.length) else pure ()

def atLeast (data : Bytes) (minimum : Nat) : Decoding Unit :=
  if data.length < minimum then fail (.tooShort minimum data.length) else pure ()

def toStr (data : Bytes) : Decoding String :=
  match String.fromUTF8? ⟨data.toArray⟩ with
  | some text => pure text
  | none => fail .invalidUtf8

def readText (data : Bytes) : Decoding String := do
  let text ← toStr data
  allocate data.length
  return text

def toVec (data : Bytes) : Decoding Bytes := do
  allocate data.length
  return data

/-- A copy of the data into an array: panics unless the lengths are equal. -/
def copyFromSlice (n : Nat) (data : Bytes) : Decoding (FixedBytes n) :=
  if h : data.length = n then pure ⟨data, h⟩ else Run.panic

def index (data : Bytes) (i : Nat) : Decoding UInt8 :=
  match data[i]? with
  | some b => pure b
  | none => Run.panic

/-- A vint, or the error that there is none. -/
def readVint (data : Bytes) : Decoding (Int64 × Nat) :=
  match decodeVint data with
  | some r => pure r
  | none => fail (.tooShort 1 data.length)

def i32TryFrom (typeName : String) (value : Int64) : Decoding Int32 :=
  if value.toInt32.toInt64 = value then pure value.toInt32 else fail (.outOfRange typeName value)

/-- A vint in the range of `i32`, from `pos` on. -/
def readVint32 (typeName : String) (data : Bytes) (pos : Nat) : Decoding (Int32 × Nat) := do
  let (value, size) ← readVint (← sliceFrom data pos)
  return (← i32TryFrom typeName value, size)

/-- Why a vector is not read. -/
inductive VectorError
  | dimensionMismatch (expected : UInt32) (gotBytes : Nat)
  | deserializationError (message : String)
  | invalidComponent (index : Nat) (reason : String)
deriving Repr, DecidableEq

/-- The text of the error. The number of expected bytes is an `u32`. -/
def VectorError.toText : VectorError → Decoding String
  | dimensionMismatch expected gotBytes => do
    let bytes ← mulU32 expected.toNat 4
    return "Dimension mismatch: expected " ++ toString expected ++ " dims (" ++ toString bytes ++
      " bytes), got " ++ toString gotBytes ++ " bytes"
  | deserializationError message => return "Deserialization error: " ++ message
  | invalidComponent index reason =>
    return "Invalid vector component at index " ++ toString index ++ ": " ++ reason

namespace VectorValue

/-- Exponent and fraction, without the sign. -/
def magnitude (bits : UInt32) : Nat := bits.toNat % 2 ^ 31

def isNan (bits : UInt32) : Bool := 0x7F800000 < magnitude bits

def isInfinite (bits : UInt32) : Bool := magnitude bits = 0x7F800000

def isFinite (bits : UInt32) : Bool := magnitude bits < 0x7F800000

def validateFrom (index : Nat) : List UInt32 → Option VectorError
  | [] => none
  | v :: values =>
    if isNan v then some (.invalidComponent index "NaN")
    else if isInfinite v then some (.invalidComponent index "Infinity")
    else validateFrom (index + 1) values

def validate (vector : VectorValue) : Option VectorError := validateFrom 0 vector.values

/-- The floats that a cursor reads one after another. -/
def readFloats : Nat → Bytes → Option (List UInt32)
  | 0, _ => some []
  | n + 1, data => do
    let (bits, rest) ← Wire.readBe 4 data
    let values ← readFloats n rest
    return UInt32.ofNat bits :: values

def deserialize (data : Bytes) (dimensions : UInt32) : Decoding (Except VectorError VectorValue) :=
  if data.length ≠ dimensions.toNat * 4 then
    pure (.error (.dimensionMismatch dimensions data.length))
  else do
    allocate dimensions.toNat
    match readFloats dimensions.toNat data with
    | some values => return .ok ⟨values⟩
    | none => return .error (.deserializationError "failed to fill whole buffer")

end VectorValue

def failVector {α : Type} (e : VectorError) : Decoding α := do
  let message ← e.toText
  fail (.invalidVector message)

def checkVector (vector : VectorValue) : Decoding VectorValue :=
  match vector.validate with
  | some e => failVector e
  | none => pure vector

def readVector (data : Bytes) (dimensions : UInt32) : Decoding VectorValue := do
  match ← VectorValue.deserialize data dimensions with
  | .error e => failVector e
  | .ok vector => checkVector vector

/-- An element behind its length, from `pos` on, and the number of bytes consumed. A negative length
is an empty element. -/
def readLengthPrefixed (data : Bytes) (pos : Nat) : Decoding (Bytes × Nat) := do
  let start ← addUsize pos 4
  atLeast data start
  let len ← readI32 (← sliceFrom data pos)
  if len < 0 then return (← slice data 0 0, 4)
  let len := asUsize len
  let stop ← addUsize start len
  atLeast data stop
  return (← slice data start stop, ← addUsize 4 len)

/-- Reads an optional field of a tuple or UDT; a negative length is a null. -/
def readOptionalField (data : Bytes) (pos : Nat) : Decoding (Option Bytes × Nat) := do
  let start ← addUsize pos 4
  if data.length < start then return (none, 0)
  let len ← readI32 (← sliceFrom data pos)
  if len < 0 then return (none, 4)
  let len := asUsize len
  let stop := min (← addUsize start len) data.length
  return (some (← slice data start stop), ← addUsize 4 len)

variable (decode decodeKey : Bytes → Decoding CqlValue)

def readItems (data : Bytes) : Nat → Nat → Decoding (List CqlValue)
  | 0, _ => return []
  | count + 1, pos => do
    let (elem, consumed) ← readLengthPrefixed data pos
    let item ← decode elem
    let pos ← addUsize pos consumed
    return item :: (← readItems data count pos)

def readEntries (data : Bytes) : Nat → Nat → Decoding (List (CqlValue × CqlValue))
  | 0, _ => return []
  | count + 1, pos => do
    let (kBytes, kConsumed) ← readLengthPrefixed data pos
    let pos ← addUsize pos kConsumed
    let (vBytes, vConsumed) ← readLengthPrefixed data pos
    let pos ← addUsize pos vConsumed
    let k ← decodeKey kBytes
    let v ← decode vBytes
    return (k, v) :: (← readEntries data count pos)

/-- The number of elements of a collection, for which room is made at once. -/
def readCount (data : Bytes) : Decoding Nat := do
  atLeast data 4
  let count := asUsize (← readI32 (← slice data 0 4))
  allocate count
  return count

def readField (data : Bytes) (pos : Nat) : Decoding (Option CqlValue × Nat) := do
  let (bytes, consumed) ← readOptionalField data pos
  let pos ← addUsize pos consumed
  match bytes with
  | some bytes => return (some (← decode bytes), pos)
  | none => return (none, pos)

/-- A duration: months, days and nanoseconds, and nothing behind them. -/
def readDuration (data : Bytes) : Decoding CqlValue := do
  let (months, n1) ← readVint32 "duration.months" data 0
  let (days, n2) ← readVint32 "duration.days" data n1
  let start ← addUsize n1 n2
  let (nanoseconds, n3) ← readVint (← sliceFrom data start)
  let consumed ← addUsize start n3
  if consumed ≠ data.length then fail (.trailingBytes consumed data.length)
  return .duration months days nanoseconds

def readInet (data : Bytes) : Decoding IpAddr :=
  if data.length = 4 then return .v4 (← copyFromSlice 4 data)
  else if data.length = 16 then return .v6 (← copyFromSlice 16 data)
  else fail (.invalidLength 4 data.length)

def readFixed (n : Nat) (data : Bytes) : Decoding (FixedBytes n) := do
  ck data n
  copyFromSlice n data

def readLong (data : Bytes) : Decoding Int64 := do
  ck data 8
  readI64 data

def readExact (w : Nat) (data : Bytes) : Decoding Nat := do
  ck data w
  readBe w data

namespace CqlValue

mutual

/-- Deserializes a value from bytes (no length in front). -/
def deserializeValue : CqlType → Bytes → Decoding CqlValue
  | .ascii, data => return ascii (← readText data)
  | .varchar, data => return varchar (← readText data)
  | .bigint, data => return bigint (← readLong data)
  | .counter, data => return counter (← readLong data)
  | .timestamp, data => return timestamp (← readLong data)
  | .time, data => return time (← readLong data)
  | .blob, data => return blob (← toVec data)
  | .boolean, data => do
    ck data 1
    return boolean ((← index data 0) != 0)
  | .double, data => return double (UInt64.ofNat (← readExact 8 data))
  | .float, data => return float (UInt32.ofNat (← readExact 4 data))
  | .int, data => do
    ck data 4
    return int (← readI32 data)
  | .uuid, data => return uuid (← readFixed 16 data)
  | .timeuuid, data => return timeuuid (← readFixed 16 data)
  | .inet, data => return inet (← readInet data)
  | .date, data => return date (UInt32.ofNat (← readExact 4 data))
  | .smallint, data => return smallint (UInt16.ofNat (← readExact 2 data)).toInt16
  | .tinyint, data => do
    ck data 1
    return tinyint (← index data 0).toInt8
  | .varint, data => return varint (← toVec data)
  | .decimal, data => do
    atLeast data 4
    let scale ← readI32 data
    let unscaled ← toVec (← sliceFrom data 4)
    return decimal unscaled scale
  | .empty, _ => return empty
  | .composite _, data | .dynamicComposite _, data => return blob (← toVec data)
  | .reversed inner, data => deserializeValue inner data
  | .duration, data => readDuration data
  | .list inner _, data => do
    let count ← readCount data
    return list (← readItems (deserializeValue inner) data count 4)
  | .set inner _, data => do
    let count ← readCount data
    return set (← readItems (deserializeValue inner) data count 4)
  | .map key value _, data => do
    let count ← readCount data
    return map (← readEntries (deserializeValue value) (deserializeValue key) data count 4)
  | .tuple types, data => do
    allocate types.length
    return tuple (← deserializeFields types data 0)
  | .udt _ _ fieldNames fieldTypes _, data => do
    allocate fieldNames.length
    return udt (← deserializeNamed fieldTypes fieldNames data 0)
  | .vector .float dimensions, data => return vector (← readVector data dimensions)
  | .vector inner dimensions, _ => fail (.unsupportedType (CqlType.vector inner dimensions).cqlName)

def deserializeFields : List CqlType → Bytes → Nat → Decoding (List (Option CqlValue))
  | [], _, _ => return []
  | type :: types, data, pos => do
    let (value, pos) ← readField (deserializeValue type) data pos
    return value :: (← deserializeFields types data pos)

/-- The fields of a UDT, with copies of their names. -/
def deserializeNamed : List CqlType → List String → Bytes → Nat →
    Decoding (List (String × Option CqlValue))
  | type :: types, name :: names, data, pos => do
    let (value, pos) ← readField (deserializeValue type) data pos
    allocate name.utf8ByteSize
    return (name, value) :: (← deserializeNamed types names data pos)
  | _, _, _, _ => return []

end

end CqlValue

end CassandraVerified.Types
