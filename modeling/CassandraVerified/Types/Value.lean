import CassandraVerified.Types.Vint

/-!
# CQL types and values

`native.rs`: the native and complex types, their names and fixed sizes. `codec.rs`: materialized
values and their serialization, without a length in front. Floating-point numbers are given by
their bits.
-/

namespace CassandraVerified.Types

/-- The types of CQL. -/
inductive CqlType
  | ascii
  | bigint
  | blob
  | boolean
  | counter
  | decimal
  | double
  | float
  | int
  | timestamp
  | uuid
  | varchar
  | varint
  | timeuuid
  | inet
  | date
  | time
  | smallint
  | tinyint
  | duration
  | empty
  | list (inner : CqlType) (frozen : Bool)
  | set (inner : CqlType) (frozen : Bool)
  | map (key value : CqlType) (frozen : Bool)
  | tuple (types : List CqlType)
  | composite (types : List CqlType)
  /-- Aliases of component comparators, by ascending alias. -/
  | dynamicComposite (aliases : List (UInt8 × CqlType))
  | udt (keyspace name : String) (fieldNames : List String) (fieldTypes : List CqlType)
      (isMultiCell : Bool)
  | reversed (inner : CqlType)
  | vector (inner : CqlType) (dimensions : UInt32)
deriving Repr

namespace CqlType

def fixedSize : CqlType → Option Nat
  | tinyint => some 1
  | smallint => some 2
  | int | float | date => some 4
  | bigint | double | timestamp | counter | time => some 8
  | uuid | timeuuid => some 16
  | boolean => some 1
  | empty => some 0
  | vector inner dimensions => inner.fixedSize.map fun size => size * dimensions.toNat % 2 ^ 64
  | _ => none

/-- A name in frozen brackets if the collection is frozen. -/
def frozenName (frozen : Bool) (name : String) : String :=
  if frozen then "frozen<" ++ name ++ ">" else name

mutual

def cqlName : CqlType → String
  | ascii => "ascii"
  | bigint => "bigint"
  | blob => "blob"
  | boolean => "boolean"
  | counter => "counter"
  | decimal => "decimal"
  | double => "double"
  | float => "float"
  | int => "int"
  | timestamp => "timestamp"
  | uuid => "uuid"
  | varchar => "text"
  | varint => "varint"
  | timeuuid => "timeuuid"
  | inet => "inet"
  | date => "date"
  | time => "time"
  | smallint => "smallint"
  | tinyint => "tinyint"
  | duration => "duration"
  | empty => "empty"
  | list inner frozen => frozenName frozen ("list<" ++ inner.cqlName ++ ">")
  | set inner frozen => frozenName frozen ("set<" ++ inner.cqlName ++ ">")
  | map key value frozen =>
    frozenName frozen ("map<" ++ key.cqlName ++ ", " ++ value.cqlName ++ ">")
  | tuple types => "tuple<" ++ ", ".intercalate (cqlNames types) ++ ">"
  | composite types => "CompositeType(" ++ ", ".intercalate (cqlNames types) ++ ")"
  | dynamicComposite aliases =>
    "DynamicCompositeType(" ++ ", ".intercalate (aliasNames aliases) ++ ")"
  | udt keyspace name _ _ _ => keyspace ++ "." ++ name
  | reversed inner => inner.cqlName
  | vector inner dimensions => "vector<" ++ inner.cqlName ++ ", " ++ toString dimensions ++ ">"

def cqlNames : List CqlType → List String
  | [] => []
  | type :: types => type.cqlName :: cqlNames types

def aliasNames : List (UInt8 × CqlType) → List String
  | [] => []
  | entry :: aliases => aliasName entry :: aliasNames aliases

def aliasName : UInt8 × CqlType → String
  | (key, type) => String.singleton (Char.ofNat key.toNat) ++ "=>" ++ type.cqlName

end

end CqlType

open Wire (Bytes beBytes)

abbrev FixedBytes (n : Nat) := { bytes : Bytes // bytes.length = n }

/-- An IPv4 or IPv6 address. -/
inductive IpAddr
  | v4 (octets : FixedBytes 4)
  | v6 (octets : FixedBytes 16)
deriving Repr, DecidableEq

/-- A vector, given by the bits of its floats. -/
structure VectorValue where
  values : List UInt32
deriving Repr, DecidableEq

/-- The values of CQL. -/
inductive CqlValue
  | null
  | ascii (text : String)
  | bigint (v : Int64)
  | blob (bytes : Bytes)
  | boolean (b : Bool)
  | counter (v : Int64)
  | decimal (unscaled : Bytes) (scale : Int32)
  | double (bits : UInt64)
  | float (bits : UInt32)
  | int (v : Int32)
  | timestamp (v : Int64)
  | uuid (bytes : FixedBytes 16)
  | varchar (text : String)
  | varint (bytes : Bytes)
  | timeuuid (bytes : FixedBytes 16)
  | inet (addr : IpAddr)
  | date (v : UInt32)
  | time (v : Int64)
  | smallint (v : Int16)
  | tinyint (v : Int8)
  | duration (months days : Int32) (nanoseconds : Int64)
  | empty
  | list (items : List CqlValue)
  | set (items : List CqlValue)
  | map (entries : List (CqlValue × CqlValue))
  | tuple (fields : List (Option CqlValue))
  | udt (fields : List (String × Option CqlValue))
  | vector (value : VectorValue)
deriving Repr

def utf8Bytes (text : String) : Bytes := text.toByteArray.data.toList

def IpAddr.octets : IpAddr → Bytes
  | .v4 octets => octets
  | .v6 octets => octets

def VectorValue.serialize (vector : VectorValue) : Bytes :=
  vector.values.flatMap fun v => beBytes 4 v.toNat

/-- Bytes behind their length, which is cut to an `i32`. -/
def writeLp (data : Bytes) : Bytes := beBytes 4 data.length ++ data

/-- The length of a field that is null. -/
def nullLength : Bytes := beBytes 4 (2 ^ 32 - 1)

namespace CqlValue

mutual

/-- Serializes the value to bytes (no length in front). -/
def serializeValue : CqlValue → Bytes
  | null | empty => []
  | ascii text | varchar text => utf8Bytes text
  | bigint v | counter v | timestamp v | time v => beBytes 8 v.toUInt64.toNat
  | blob bytes | varint bytes => bytes
  | boolean b => [if b then 1 else 0]
  | decimal unscaled scale => beBytes 4 scale.toUInt32.toNat ++ unscaled
  | double bits => beBytes 8 bits.toNat
  | float bits => beBytes 4 bits.toNat
  | int v => beBytes 4 v.toUInt32.toNat
  | uuid bytes | timeuuid bytes => bytes
  | inet addr => addr.octets
  | date v => beBytes 4 v.toNat
  | smallint v => beBytes 2 v.toUInt16.toNat
  | tinyint v => [v.toUInt8]
  | duration months days nanoseconds =>
    encodeVint months.toInt64 ++ encodeVint days.toInt64 ++ encodeVint nanoseconds
  | list items | set items => beBytes 4 items.length ++ serializeItems items
  | map entries => beBytes 4 entries.length ++ serializeEntries entries
  | tuple fields => serializeFields fields
  | udt fields => serializeNamed fields
  | vector value => value.serialize

def serializeItems : List CqlValue → Bytes
  | [] => []
  | item :: items => writeLp item.serializeValue ++ serializeItems items

def serializeEntries : List (CqlValue × CqlValue) → Bytes
  | [] => []
  | entry :: entries => serializeEntry entry ++ serializeEntries entries

def serializeEntry : CqlValue × CqlValue → Bytes
  | (k, v) => writeLp k.serializeValue ++ writeLp v.serializeValue

def serializeFields : List (Option CqlValue) → Bytes
  | [] => []
  | field :: fields => writeOpt field ++ serializeFields fields

def writeOpt : Option CqlValue → Bytes
  | some v => writeLp v.serializeValue
  | none => nullLength

def serializeNamed : List (String × Option CqlValue) → Bytes
  | [] => []
  | field :: fields => serializeField field ++ serializeNamed fields

def serializeField : String × Option CqlValue → Bytes
  | (_, v) => writeOpt v

end

end CqlValue

end CassandraVerified.Types
