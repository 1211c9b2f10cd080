import CassandraVerified.Types.Comparator

/-!
# Byte-comparable encoding

`byte_comparable.rs`: serialized values as byte strings whose unsigned lexicographic order is meant
to be the order of the values.
-/

namespace CassandraVerified.Types

open Wire (Bytes beBytes beNat)

/-- IEEE 754 floats of `w` bytes: a negative one has all bits inverted, another one its sign. -/
def encodeFloating (w : Nat) (data : Bytes) : Bytes :=
  if data.length < w then data
  else
    let bits := beNat (data.take w)
    let sign := 2 ^ (8 * w - 1)
    beBytes w (if sign ≤ bits then 2 * sign - 1 - bits else bits + sign)

/-- Escapes zero bytes and terminates. -/
def encodeByteString (data : Bytes) : Bytes :=
  (data.flatMap fun b => if b = 0 then [0, 0xFF] else [b]) ++ [0, 0]

/-- The version first. -/
def encodeUuid (data : Bytes) : Bytes :=
  if data.length ≠ 16 then data else (uuidVersion data).toList ++ data

/-- The sign and the length in front; the length is cut to a byte. -/
def encodeVarint (data : Bytes) : Bytes :=
  if data = [] then [0x80]
  else
    let len := UInt8.ofNat data.length
    (if isNegative data then 0x80 - len else 0x80 + len) :: data

/-- The encodings of elements of a fixed size, one after another. -/
def encodeElements (encode : Bytes → Bytes) (data : Bytes) (size : Nat) : Nat → Nat → Bytes
  | 0, _ => []
  | n + 1, idx =>
    encode ((data.drop (idx * size)).take size) ++ encodeElements encode data size n (idx + 1)

def encodeVector (size : Option Nat) (encode : Bytes → Bytes) (dimensions : Nat) (data : Bytes) :
    Bytes :=
  match size with
  | none => data
  | some size =>
    if data.length ≠ min (size * dimensions) (2 ^ 64 - 1) then data
    else encodeElements encode data size dimensions 0

/-- What is compared byte by byte in place of the data. -/
def encodeByteComparable : CqlType → Bytes → Bytes
  | .tinyint, data | .smallint, data | .int, data | .date, data | .bigint, data | .timestamp, data
  | .time, data | .counter, data => flipSign data
  | .float, data => encodeFloating 4 data
  | .double, data => encodeFloating 8 data
  | .ascii, data | .varchar, data | .blob, data => encodeByteString data
  | .uuid, data | .timeuuid, data => encodeUuid data
  | .boolean, data => data
  | .varint, data => encodeVarint data
  | .reversed inner, data => (encodeByteComparable inner data).map fun b => ~~~b
  | .vector inner dimensions, data =>
    encodeVector inner.fixedSize (encodeByteComparable inner) dimensions.toNat data
  | _, data => data

def separator : UInt8 := 0x40

def terminator : UInt8 := 0x38

def separate (idx : Nat) (component : Bytes) : Bytes :=
  if 0 < idx then separator :: component else component

def encodeComponents (components : List Bytes) : Bytes :=
  (components.zipIdx.flatMap fun (component, idx) => separate idx component) ++ [terminator]

def encodeTypedComponents (components : List (CqlType × Bytes)) : Bytes :=
  encodeComponents (components.map fun (type, data) => encodeByteComparable type data)

/-- The number of bytes that two keys begin with in common. -/
def commonLength (left right : Bytes) : Nat :=
  ((left.zip right).takeWhile fun (a, b) => a == b).length

/-- A short separator of two keys. -/
def separatorBetween (previous next : Bytes) : Bytes :=
  if next ≤ previous then next
  else
    let common := commonLength previous next
    if common = previous.length then previous
    else
      -- both go on behind what they have in common
      let prevByte := previous.getD common 0
      let nextByte := next.getD common 0
      if prevByte < 0xFF ∧ prevByte + 1 < nextByte then previous.take common ++ [prevByte + 1]
      else
        let separator := next.take (common + 1)
        if separator ≤ previous then next else separator

/-- The key up to its last byte that is not 0xFF, which is incremented. -/
def successor (key : Bytes) : Option Bytes :=
  match key.reverse.dropWhile (· == 0xFF) with
  | [] => none
  | last :: front => some (front.reverse ++ [last + 1])

/-- The order of tuples: the first components that differ decide. -/
def compareComponents (unicode : CharClass) :
    List CqlType → List Bytes → List Bytes → Option Ordering
  | type :: types, l :: left, r :: right =>
    thenWith (compareBytes unicode type l r) (compareComponents unicode types left right)
  | _, _, _ => some .eq

/-- Integers of a fixed width, times, booleans, strings, and reversed forms of these. -/
def CqlType.isComponent : CqlType → Bool
  | .tinyint | .smallint | .int | .bigint | .counter | .timestamp | .time | .boolean => true
  | .ascii | .varchar | .blob => true
  | .reversed inner => inner.isComponent
  | _ => false

/-- The encodings of the two values are ordered as the values are. -/
def EncodedAs (unicode : CharClass) (type : CqlType) (left right : Bytes) : Prop :=
  compareBytes unicode type left right =
    some (cmpBytes (encodeByteComparable type left) (encodeByteComparable type right))

instance (unicode : CharClass) (type : CqlType) (left right : Bytes) :
    Decidable (EncodedAs unicode type left right) :=
  inferInstanceAs (Decidable (_ = _))

/-- All valid values of the type are ordered as their encodings. -/
def ByteOrdered (unicode : CharClass) (type : CqlType) : Prop :=
  ∀ left right, (∃ v, (CqlValue.deserializeValue type left).outcome = .ok v) →
    (∃ v, (CqlValue.deserializeValue type right).outcome = .ok v) →
      EncodedAs unicode type left right

/-- The types whose encodings are ordered as the values; `straight` if the number of reversals
around the type is even. Values of `inet` and `empty` may be prefixes of each other, so that
inverting their bytes does not reverse them. -/
def CqlType.orderedByBytes : CqlType → (straight : Bool) → Bool
  | .tinyint, _ | .smallint, _ | .int, _ | .bigint, _ | .timestamp, _ | .time, _ | .counter, _ => true
  | .float, _ | .double, _ | .boolean, _ | .uuid, _ | .ascii, _ | .varchar, _ | .blob, _ => true
  | .vector _ _, _ => true
  | .inet, straight | .empty, straight => straight
  | .reversed inner, straight => inner.orderedByBytes !straight
  | _, _ => false

end CassandraVerified.Types
