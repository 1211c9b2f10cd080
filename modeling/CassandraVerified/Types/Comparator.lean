import CassandraVerified.Types.Codec
import CassandraVerified.Types.TypeParser

/-!
# Comparison of serialized values

`comparator.rs`, with the composite formats of `composite.rs` and `dynamic_composite.rs`. A
comparison that indexes out of bounds panics: it is `none`.
-/

namespace CassandraVerified.Types

open Wire (Bytes beNat)

/-- Goes on to the second comparison if the first finds no difference. -/
def thenWith (first second : Option Ordering) : Option Ordering :=
  match first with
  | some .eq => second
  | _ => first

def cmpBytes (left right : Bytes) : Ordering := compare left right

/-! ## Scalars -/

/-- The sign bit inverted, so that signed numbers compare as unsigned ones. -/
def flipSign : Bytes → Bytes
  | [] => []
  | b :: rest => (b ^^^ 0x80) :: rest

def cmpSignedFixed (n : Nat) (left right : Bytes) : Option Ordering :=
  if left.length < n ∨ right.length < n then none
  else some (cmpBytes (flipSign (left.take n)) (flipSign (right.take n)))

def cmpTinyint : Bytes → Bytes → Option Ordering
  | l :: _, r :: _ => some (compare l.toInt8 r.toInt8)
  | _, _ => none

def cmpBoolean : Bytes → Bytes → Option Ordering
  | l :: _, r :: _ => some (compare l r)
  | _, _ => none

def readUnsigned (w : Nat) (data : Bytes) : Option Nat :=
  if data.length < w then none else some (beNat (data.take w))

/-- `total_cmp` of floats of `w` bits: negative magnitudes are inverted, and then signed numbers
compared. -/
def totalCmp (w : Nat) (left right : BitVec w) : Ordering :=
  let key (bits : BitVec w) : Int := (bits ^^^ (bits.sshiftRight (w - 1) >>> 1)).toInt
  compare (key left) (key right)

/-- Floats of `w` bytes. -/
def cmpFloating (w : Nat) (left right : Bytes) : Option Ordering := do
  let l ← readUnsigned w left
  let r ← readUnsigned w right
  return totalCmp (8 * w) (BitVec.ofNat _ l) (BitVec.ofNat _ r)

def uuidVersion (uuid : Bytes) : Option UInt8 := uuid[6]?.map fun (b : UInt8) => (b >>> 4) &&& 15

def cmpUuid (left right : Bytes) : Option Ordering := do
  let vl ← uuidVersion left
  let vr ← uuidVersion right
  if vl ≠ vr then return compare vl vr
  return cmpBytes left right

/-- The 60-bit timestamp of a version 1 UUID. -/
def timeuuidTimestamp (uuid : Bytes) : Option Nat :=
  if uuid.length < 8 then none
  else
    let timeLow := beNat (uuid.take 4)
    let timeMid := beNat ((uuid.drop 4).take 2)
    let timeHi := beNat ((uuid.drop 6).take 2) % 2 ^ 12
    some (timeHi * 2 ^ 48 + timeMid * 2 ^ 32 + timeLow)

/-- The timestamp first, then the clock sequence and node. -/
def cmpTimeuuid (left right : Bytes) : Option Ordering := do
  let tl ← timeuuidTimestamp left
  let tr ← timeuuidTimestamp right
  return (compare tl tr).then (cmpBytes (left.drop 8) (right.drop 8))

def cmpDate (left right : Bytes) : Option Ordering := do
  return compare (← readUnsigned 4 left) (← readUnsigned 4 right)

def isNegative (data : Bytes) : Bool :=
  match data with
  | [] => false
  | b :: _ => 0x80 ≤ b

/-- Integers of any length: by sign, by length, by bytes. An empty one is the least. -/
def cmpVarint (left right : Bytes) : Ordering :=
  if left = [] ∧ right = [] then .eq
  else if left = [] then .lt
  else if right = [] then .gt
  else
    match isNegative left, isNegative right with
    | true, false => .lt
    | false, true => .gt
    | true, true => (compare left.length right.length).swap.then (cmpBytes left right)
    | false, false => (compare left.length right.length).then (cmpBytes left right)

def cmpDecimal (left right : Bytes) : Ordering :=
  if left.length < 4 ∨ right.length < 4 then compare left.length right.length
  else
    let scale (data : Bytes) : Int32 := (UInt32.ofNat (beNat (data.take 4))).toInt32
    (compare (scale left) (scale right)).then (cmpVarint (left.drop 4) (right.drop 4))

/-- Months, days and nanoseconds, if they can be decoded. -/
def decodeDuration (data : Bytes) : Option (Int64 × Int64 × Int64) := do
  let (months, n1) ← decodeVint data
  let (days, n2) ← decodeVint (data.drop n1)
  let (nanoseconds, _) ← decodeVint (data.drop (n1 + n2))
  return (months, days, nanoseconds)

def cmpDuration (left right : Bytes) : Ordering :=
  match decodeDuration left, decodeDuration right with
  | some (ml, dl, nl), some (mr, dr, nr) =>
    ((compare ml mr).then (compare dl dr)).then (compare nl nr)
  | _, _ => cmpBytes left right

/-! ## Collections and tuples -/

/-- An element that may be null, and the number of bytes that were consumed. -/
def readOptionalElem (data : Bytes) (pos : Nat) : Option Bytes × Nat :=
  if data.length < pos + 4 then (none, 0)
  else
    let len := beNat ((data.drop pos).take 4)
    if 2 ^ 31 ≤ len then (none, 4) else (some ((data.drop (pos + 4)).take len), 4 + len)

/-- An element; one that is null or missing is empty. -/
def readElem (data : Bytes) (pos : Nat) : Bytes × Nat :=
  ((readOptionalElem data pos).1.getD [], (readOptionalElem data pos).2)

def readCountOf (data : Bytes) : Nat := asUsize (UInt32.ofNat (beNat (data.take 4))).toInt32

section Elements

variable (cmp cmpKey : Bytes → Bytes → Option Ordering) (left right : Bytes)

def cmpItems (rest : Option Ordering) : Nat → Nat → Nat → Option Ordering
  | 0, _, _ => rest
  | count + 1, posL, posR =>
    let (l, nl) := readElem left posL
    let (r, nr) := readElem right posR
    thenWith (cmp l r) (cmpItems rest count (posL + nl) (posR + nr))

def cmpCollectionSeq : Option Ordering :=
  if left.length < 4 ∨ right.length < 4 then some (compare left.length right.length)
  else
    let cntL := readCountOf left
    let cntR := readCountOf right
    cmpItems cmp left right (some (compare cntL cntR)) (min cntL cntR) 4 4

def cmpEntries (rest : Option Ordering) : Nat → Nat → Nat → Option Ordering
  | 0, _, _ => rest
  | count + 1, posL, posR =>
    let (kl, nkl) := readElem left posL
    let (kr, nkr) := readElem right posR
    thenWith (cmpKey kl kr) <|
      let (vl, nvl) := readElem left (posL + nkl)
      let (vr, nvr) := readElem right (posR + nkr)
      thenWith (cmp vl vr) (cmpEntries rest count (posL + nkl + nvl) (posR + nkr + nvr))

def cmpMap : Option Ordering :=
  if left.length < 4 ∨ right.length < 4 then some (compare left.length right.length)
  else
    let cntL := readCountOf left
    let cntR := readCountOf right
    cmpEntries cmp cmpKey left right (some (compare cntL cntR)) (min cntL cntR) 4 4

/-- Elements of a fixed size; the slices of data of another length are not taken. -/
def cmpElements (size : Nat) : Nat → Nat → Option Ordering
  | 0, _ => some .eq
  | n + 1, idx =>
    let start := idx * size
    thenWith (cmp ((left.drop start).take size) ((right.drop start).take size))
      (cmpElements size n (idx + 1))

end Elements

/-- Fields that may be null: a null comes first. -/
def cmpOptional (cmp : Bytes → Bytes → Option Ordering) :
    Option Bytes → Option Bytes → Option Ordering
  | none, none => some .eq
  | none, some _ => some .lt
  | some _, none => some .gt
  | some l, some r => cmp l r

/-- A component of a composite: its bytes, and the end-of-component byte. -/
structure Component where
  data : Bytes
  eoc : UInt8
deriving Repr, DecidableEq

/-- Bytes behind a length of two bytes, with the end-of-component byte, and the rest. -/
def readComponent (data : Bytes) : Option (Component × Bytes) := do
  let (len, data) ← Wire.readBe 2 data
  let (value, data) ← Wire.take len data
  let (eoc, data) ← Wire.readByte data
  return (⟨value, eoc⟩, data)

/-- The components of a composite; every one takes at least three bytes. -/
def deserializeComposite : Nat → Bytes → Option (List Component)
  | 0, data => if data = [] then some [] else none
  | fuel + 1, data =>
    if data = [] then some []
    else do
      let (component, rest) ← readComponent data
      return component :: (← deserializeComposite fuel rest)

/-- The end-of-component bytes are signed. -/
def compareEoc (left right : UInt8) : Ordering := compare left.toInt8 right.toInt8

/-- A component of a dynamic composite, with its comparator. -/
structure DynamicComponent where
  comparator : CqlType
  value : Bytes
  eoc : UInt8

/-- The comparator in front of a component: an alias, or a type name of the given length. -/
def readComparator (parse : String → Option CqlType) (aliases : List (UInt8 × CqlType))
    (data : Bytes) : Option (CqlType × Bytes) := do
  let (header, data) ← Wire.readBe 2 data
  if 2 ^ 15 ≤ header then
    let type ← aliases.lookup (UInt8.ofNat header)
    return (type, data)
  else
    let (name, data) ← Wire.take header data
    let text ← String.fromUTF8? ⟨name.toArray⟩
    let type ← parse text
    return (type, data)

def deserializeDynamicComposite (parse : String → Option CqlType)
    (aliases : List (UInt8 × CqlType)) : Nat → Bytes → Option (List DynamicComponent)
  | 0, data => if data = [] then some [] else none
  | fuel + 1, data =>
    if data = [] then some []
    else do
      let (comparator, rest) ← readComparator parse aliases data
      let (component, rest) ← readComponent rest
      return ⟨comparator, component.data, component.eoc⟩ ::
        (← deserializeDynamicComposite parse aliases fuel rest)

section Composites

variable (cmp : Nat → Bytes → Bytes → Option Ordering)

/-- Compares components one by one, each by the comparator of its place. -/
def cmpComponents (idx : Nat) : List Component → List Component → Option Ordering
  | l :: left, r :: right =>
    thenWith (cmp idx l.data r.data) <|
      thenWith (some (compareEoc l.eoc r.eoc)) (cmpComponents (idx + 1) left right)
  | left, right => some (compare left.length right.length)

def cmpComposite (left right : Bytes) : Option Ordering :=
  match deserializeComposite left.length left, deserializeComposite right.length right with
  | some ls, some rs => cmpComponents cmp 0 ls rs
  | _, _ => some (cmpBytes left right)

end Composites

/-- Compares the names of the comparators and then the values by the left one. Equal types have
equal names, so that the names are always compared. -/
def cmpDynamicComponents (inline : CqlType → Bytes → Bytes → Option Ordering) :
    List DynamicComponent → List DynamicComponent → Option Ordering
  | l :: left, r :: right =>
    thenWith (some (compare l.comparator.javaMarshalName r.comparator.javaMarshalName)) <|
      thenWith (inline l.comparator l.value r.value) <|
        thenWith (some (compareEoc l.eoc r.eoc)) (cmpDynamicComponents inline left right)
  | left, right => some (compare left.length right.length)

def cmpDynamicComposite (parse : String → Option CqlType)
    (inline : CqlType → Bytes → Bytes → Option Ordering) (aliases : List (UInt8 × CqlType))
    (left right : Bytes) : Option Ordering :=
  match deserializeDynamicComposite parse aliases left.length left,
    deserializeDynamicComposite parse aliases right.length right with
  | some ls, some rs => cmpDynamicComponents inline ls rs
  | _, _ => some (cmpBytes left right)

def cmpVector (size : Option Nat) (cmp : Bytes → Bytes → Option Ordering) (dimensions : Nat)
    (left right : Bytes) : Option Ordering :=
  match size with
  | none => some (cmpBytes left right)
  | some size =>
    let expectedLen := min (size * dimensions) (2 ^ 64 - 1)
    if left.length ≠ expectedLen ∨ right.length ≠ expectedLen then
      some ((compare left.length right.length).then (cmpBytes left right))
    else cmpElements cmp left right size dimensions 0

/-! ## All types -/

section Types

variable (parse : String → Option CqlType) (inline : CqlType → Bytes → Bytes → Option Ordering)

mutual

/-- Compares two serialized values; `inline` is the comparison by a type that stands in the data. -/
def compareWith : CqlType → Bytes → Bytes → Option Ordering
  | .int, left, right => cmpSignedFixed 4 left right
  | .bigint, left, right | .timestamp, left, right | .time, left, right | .counter, left, right =>
    cmpSignedFixed 8 left right
  | .smallint, left, right => cmpSignedFixed 2 left right
  | .tinyint, left, right => cmpTinyint left right
  | .ascii, left, right | .varchar, left, right | .blob, left, right | .inet, left, right
  | .empty, left, right => some (cmpBytes left right)
  | .boolean, left, right => cmpBoolean left right
  | .float, left, right => cmpFloating 4 left right
  | .double, left, right => cmpFloating 8 left right
  | .uuid, left, right => cmpUuid left right
  | .timeuuid, left, right => cmpTimeuuid left right
  | .date, left, right => cmpDate left right
  | .varint, left, right => some (cmpVarint left right)
  | .reversed inner, left, right => (compareWith inner left right).map Ordering.swap
  | .decimal, left, right => some (cmpDecimal left right)
  | .duration, left, right => some (cmpDuration left right)
  | .list inner _, left, right | .set inner _, left, right =>
    cmpCollectionSeq (compareWith inner) left right
  | .map key value _, left, right => cmpMap (compareWith value) (compareWith key) left right
  | .tuple types, left, right => compareTuple types left right 0 0
  | .udt _ _ _ fieldTypes _, left, right => compareTuple fieldTypes left right 0 0
  | .composite types, left, right => cmpComposite (compareAt types) left right
  | .dynamicComposite aliases, left, right => cmpDynamicComposite parse inline aliases left right
  | .vector inner dimensions, left, right =>
    cmpVector inner.fixedSize (compareWith inner) dimensions.toNat left right

def compareTuple : List CqlType → Bytes → Bytes → Nat → Nat → Option Ordering
  | [], _, _, _, _ => some .eq
  | type :: types, left, right, posL, posR =>
    let (l, nl) := readOptionalElem left posL
    let (r, nr) := readOptionalElem right posR
    thenWith (cmpOptional (compareWith type) l r)
      (compareTuple types left right (posL + nl) (posR + nr))

/-- Compares by the type at the index, as blobs beyond the last one. -/
def compareAt : List CqlType → Nat → Bytes → Bytes → Option Ordering
  | [], _, left, right => some (cmpBytes left right)
  | type :: _, 0, left, right => compareWith type left right
  | _ :: types, idx + 1, left, right => compareAt types idx left right

end

/-- The comparison with types in the data nested at most so deep. -/
def compareDepth : Nat → CqlType → Bytes → Bytes → Option Ordering
  | 0, _, _, _ => none
  | depth + 1, type, left, right => compareWith parse (compareDepth depth) type left right

end Types

/-- A type in the data stands in front of a shorter value, so that the length of the data bounds the
depth. -/
def compareBytes (unicode : CharClass) (type : CqlType) (left right : Bytes) : Option Ordering :=
  compareDepth (fun name => (parseType unicode name).toOption) (left.length + 1) type left right

/-- The integer of a two's complement of any length. -/
def varintValue (data : Bytes) : Int :=
  if isNegative data then beNat data - 256 ^ data.length else beNat data

/-- The first byte does not only repeat the sign. -/
def isMinimal : Bytes → Bool
  | [] => false
  | [_] => true
  | b :: c :: _ => ¬ (b = 0 ∧ c < 0x80) ∧ ¬ (b = 0xFF ∧ 0x80 ≤ c)

def decimalScale (data : Bytes) : Int32 := (UInt32.ofNat (beNat (data.take 4))).toInt32

def decimalValue (data : Bytes) : ℚ :=
  varintValue (data.drop 4) * 10 ^ (-(decimalScale data).toInt)

/-- The decimals `a` and `b` are ordered as the rational numbers, and the varints `l` and `r` as the
integers. -/
def NumericallyOrdered (unicode : CharClass) (a b l r : Bytes) : Prop :=
  compareBytes unicode .decimal a b = some (cmp (decimalValue a) (decimalValue b)) ∧
    compareBytes unicode .varint l r = some (compare (varintValue l) (varintValue r))

end CassandraVerified.Types
