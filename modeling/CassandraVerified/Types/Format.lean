import CassandraVerified.Types.Codec

/-!
# The format of CQL values

What the bytes of each type look like, said without a decoder: a type accepts bytes, and admits
values. A collection is a count and its elements, each behind its length; a tuple or UDT is its
fields, which may be null, cut short or missing at the end.
-/

namespace CassandraVerified.Types

open Wire (Bytes)

/-- An element behind its length, and the rest. A length with the sign bit is an empty element. -/
def frame (bytes : Bytes) : Option (Bytes × Bytes) :=
  match Wire.readBe 4 bytes with
  | some (len, rest) => if len < 2 ^ 31 then Wire.take len rest else some ([], rest)
  | none => none

/-- As many of the elements as there are. -/
def frames : Nat → Bytes → List Bytes
  | 0, _ => []
  | count + 1, bytes =>
    match frame bytes with
    | some (elem, rest) => elem :: frames count rest
    | none => []

/-- As many of the entries as there are. -/
def framePairs : Nat → Bytes → List (Bytes × Bytes)
  | 0, _ => []
  | count + 1, bytes =>
    match frame bytes with
    | some (key, rest) =>
      match frame rest with
      | some (value, rest) => (key, value) :: framePairs count rest
      | none => []
    | none => []

def field (bytes : Bytes) : Option Bytes × Bytes :=
  match Wire.readBe 4 bytes with
  | some (len, rest) => if len < 2 ^ 31 then (some (rest.take len), rest.drop len) else (none, rest)
  | none => (none, bytes)

def isUtf8 (bytes : Bytes) : Bool := (String.fromUTF8? ⟨bytes.toArray⟩).isSome

def frameVint32 (bytes : Bytes) : Option Bytes :=
  match decodeVint bytes with
  | some (value, size) =>
    if value.toInt32.toInt64 = value then some (bytes.drop size) else none
  | none => none

/-- Months and days in the range of `i32`, nanoseconds, and nothing behind them. -/
def isDuration (bytes : Bytes) : Bool :=
  match (frameVint32 bytes).bind frameVint32 with
  | some rest => (decodeVint rest).any fun r => r.2 = rest.length
  | none => false

namespace CqlType

def acceptsItems (accept : Bytes → Bool) (bytes : Bytes) : Bool :=
  match Wire.readBe 4 bytes with
  | some (count, rest) =>
    count < 2 ^ 31 ∧ (frames count rest).length = count ∧ (frames count rest).all accept
  | none => false

def acceptsEntries (acceptKey accept : Bytes → Bool) (bytes : Bytes) : Bool :=
  match Wire.readBe 4 bytes with
  | some (count, rest) =>
    count < 2 ^ 31 ∧ (framePairs count rest).length = count ∧
      (framePairs count rest).all fun e => acceptKey e.1 && accept e.2
  | none => false

mutual

/-- The bytes are a serialized value of the type. -/
def accepts : CqlType → Bytes → Bool
  | ascii, bytes | varchar, bytes => isUtf8 bytes
  | bigint, bytes | counter, bytes | timestamp, bytes | time, bytes | double, bytes =>
    bytes.length = 8
  | boolean, bytes | tinyint, bytes => bytes.length = 1
  | float, bytes | int, bytes | date, bytes => bytes.length = 4
  | smallint, bytes => bytes.length = 2
  | uuid, bytes | timeuuid, bytes => bytes.length = 16
  | inet, bytes => bytes.length = 4 ∨ bytes.length = 16
  | blob, _ | varint, _ | empty, _ | composite _, _ | dynamicComposite _, _ => true
  | decimal, bytes => 4 ≤ bytes.length
  | duration, bytes => isDuration bytes
  | list inner _, bytes | set inner _, bytes => acceptsItems inner.accepts bytes
  | map key value _, bytes => acceptsEntries key.accepts value.accepts bytes
  | tuple types, bytes => acceptsFields types types.length bytes
  | udt _ _ fieldNames fieldTypes _, bytes => acceptsFields fieldTypes fieldNames.length bytes
  | reversed inner, bytes => inner.accepts bytes
  | vector float dimensions, bytes =>
    bytes.length = dimensions.toNat * 4 ∧
      ((VectorValue.readFloats dimensions.toNat bytes).any (·.all VectorValue.isFinite))
  | vector _ _, _ => false

/-- The bytes start with fields of the first `n` types. -/
def acceptsFields : List CqlType → Nat → Bytes → Bool
  | type :: types, n + 1, bytes =>
    (field bytes).1.all type.accepts && acceptsFields types n (field bytes).2
  | _, _, _ => true

end

mutual

/-- The size of the type: its nodes, and the names of its fields. -/
def size : CqlType → Nat
  | list inner _ | set inner _ | reversed inner | vector inner _ => inner.size + 1
  | map key value _ => key.size + value.size + 1
  | tuple types | composite types => sizes types + 1
  | udt _ _ fieldNames fieldTypes _ =>
    (fieldNames.map fun name => name.utf8ByteSize + 1).sum + sizes fieldTypes + 1
  | dynamicComposite aliases => aliases.length + 1
  | _ => 1

def sizes : List CqlType → Nat
  | [] => 0
  | type :: types => type.size + sizes types + 1

end

/-- All the elements fit, as far as the ones before them are accepted. -/
def fitsWhile {α : Type} (accept fit : α → Bool) : List α → Bool
  | [] => true
  | elem :: elems => fit elem && (!accept elem || fitsWhile accept fit elems)

/-- An entry fits: its value only counts if its key is accepted. -/
def entryFits (acceptKey fitKey fitValue : Bytes → Bool) (entry : Bytes × Bytes) : Bool :=
  fitKey entry.1 && (!acceptKey entry.1 || fitValue entry.2)

def itemsFit (limit : Nat) (accept fit : Bytes → Bool) (bytes : Bytes) : Bool :=
  match Wire.readBe 4 bytes with
  | some (count, rest) =>
    count < 2 ^ 31 ∧ count ≤ limit ∧ fitsWhile accept fit (frames count rest)
  | none => true

def entriesFit (limit : Nat) (acceptKey accept fitKey fit : Bytes → Bool) (bytes : Bytes) : Bool :=
  match Wire.readBe 4 bytes with
  | some (count, rest) =>
    count < 2 ^ 31 ∧ count ≤ limit ∧
      fitsWhile (fun e => acceptKey e.1 && accept e.2) (entryFits acceptKey fitKey fit)
        (framePairs count rest)
  | none => true

mutual

/-- No count of a collection in the bytes is negative or above the limit, as far as the bytes
before it are accepted, and no vector of another length has a size that overflows. -/
def countsFit (limit : Nat) : CqlType → Bytes → Bool
  | list inner _, bytes | set inner _, bytes =>
    itemsFit limit inner.accepts (countsFit limit inner) bytes
  | map key value _, bytes =>
    entriesFit limit key.accepts value.accepts (countsFit limit key) (countsFit limit value) bytes
  | tuple types, bytes => fieldsFit limit types types.length bytes
  | udt _ _ fieldNames fieldTypes _, bytes =>
    fieldsFit limit fieldTypes fieldNames.length bytes
  | reversed inner, bytes => countsFit limit inner bytes
  | vector float dimensions, bytes =>
    bytes.length = dimensions.toNat * 4 ∨ dimensions.toNat < 2 ^ 30
  | _, _ => true

def fieldsFit (limit : Nat) : List CqlType → Nat → Bytes → Bool
  | type :: types, n + 1, bytes =>
    (field bytes).1.all (countsFit limit type) &&
      (!(field bytes).1.all type.accepts || fieldsFit limit types n (field bytes).2)
  | _, _, _ => true

end

/-- Decoding does not panic, and requests at most `factor` times the size of the bytes and of the
type. -/
def DecodesSafely (factor : Nat) (type : CqlType) (bytes : Bytes) : Prop :=
  (CqlValue.deserializeValue type bytes).Safe (factor * (type.size + bytes.length))

mutual

/-- The value is one of the type. A null has no bytes of its own and belongs to no type. -/
def admits : CqlType → CqlValue → Bool
  | ascii, .ascii _ | varchar, .varchar _ | bigint, .bigint _ | counter, .counter _
  | timestamp, .timestamp _ | time, .time _ | blob, .blob _ | boolean, .boolean _
  | double, .double _ | float, .float _ | int, .int _ | uuid, .uuid _ | timeuuid, .timeuuid _
  | inet, .inet _ | date, .date _ | smallint, .smallint _ | tinyint, .tinyint _
  | varint, .varint _ | decimal, .decimal _ _ | duration, .duration _ _ _ | empty, .empty => true
  | composite _, .blob _ | dynamicComposite _, .blob _ => true
  | list inner _, .list items | set inner _, .set items => items.all inner.admits
  | map key value _, .map entries => entries.all fun e => key.admits e.1 && value.admits e.2
  | tuple types, .tuple fields => admitsFields types fields
  | udt _ _ fieldNames fieldTypes _, .udt fields => admitsNamed fieldTypes fieldNames fields
  | reversed inner, value => inner.admits value
  | vector float dimensions, .vector value => value.values.length = dimensions.toNat
  | _, _ => false

def admitsFields : List CqlType → List (Option CqlValue) → Bool
  | [], [] => true
  | type :: types, value :: fields => value.all type.admits && admitsFields types fields
  | _, _ => false

/-- One field for each name and type, as far as there are both. -/
def admitsNamed : List CqlType → List String → List (String × Option CqlValue) → Bool
  | type :: types, name :: names, value :: fields =>
    value.1 = name && value.2.all type.admits && admitsNamed types names fields
  | [], _, fields | _ :: _, [], fields => fields.isEmpty
  | _ :: _, _ :: _, [] => false

end

end CqlType

namespace CqlValue

mutual

/-- The condition holds of the value and of all values inside it. -/
def everywhere (p : CqlValue → Bool) : CqlValue → Bool
  | list items => p (list items) && everyItem p items
  | set items => p (set items) && everyItem p items
  | map entries => p (map entries) && everyEntry p entries
  | tuple fields => p (tuple fields) && everyField p fields
  | udt fields => p (udt fields) && everyNamed p fields
  | value => p value

def everyItem (p : CqlValue → Bool) : List CqlValue → Bool
  | [] => true
  | item :: items => item.everywhere p && everyItem p items

def everyEntry (p : CqlValue → Bool) : List (CqlValue × CqlValue) → Bool
  | [] => true
  | entry :: entries => bothOf p entry && everyEntry p entries

def bothOf (p : CqlValue → Bool) : CqlValue × CqlValue → Bool
  | (k, v) => k.everywhere p && v.everywhere p

def everyField (p : CqlValue → Bool) : List (Option CqlValue) → Bool
  | [] => true
  | value :: fields => ifPresent p value && everyField p fields

def ifPresent (p : CqlValue → Bool) : Option CqlValue → Bool
  | some v => v.everywhere p
  | none => true

def everyNamed (p : CqlValue → Bool) : List (String × Option CqlValue) → Bool
  | [] => true
  | field :: fields => ofField p field && everyNamed p fields

def ofField (p : CqlValue → Bool) : String × Option CqlValue → Bool
  | (_, value) => ifPresent p value

end

def isShort (value : CqlValue) : Bool := value.serializeValue.length < 2 ^ 31

/-- The counts and lengths that are written for the value are below `2^31`. -/
def lengthsFit : CqlValue → Bool
  | list items | set items => items.length < 2 ^ 31 ∧ items.all isShort
  | map entries => entries.length < 2 ^ 31 ∧ entries.all fun e => e.1.isShort && e.2.isShort
  | tuple fields => fields.all (·.all isShort)
  | udt fields => fields.all fun f => f.2.all isShort
  | _ => true

def finiteVector : CqlValue → Bool
  | vector value => value.values.all VectorValue.isFinite
  | _ => true

end CqlValue

end CassandraVerified.Types
