import CassandraVerified.Types.Value

/-!
# Marshal type names

`dynamic_composite.rs` renders a type as the class name of its marshal type, `type_parser.rs` reads
such names. The parser keeps what is left of the text; the texts of its errors are left out.
-/

namespace CassandraVerified.Types

open Wire (Bytes)

def hexDigit (n : Nat) : Char := "0123456789abcdef".toList.getD n '0'

def hexEncode (bytes : Bytes) : String :=
  String.ofList (bytes.flatMap fun b => [hexDigit (b.toNat / 16), hexDigit (b.toNat % 16)])

namespace CqlType

mutual

def javaMarshalName : CqlType → String
  | ascii => "AsciiType"
  | bigint => "LongType"
  | blob => "BytesType"
  | boolean => "BooleanType"
  | counter => "CounterColumnType"
  | decimal => "DecimalType"
  | double => "DoubleType"
  | float => "FloatType"
  | int => "Int32Type"
  | timestamp => "TimestampType"
  | uuid => "UUIDType"
  | varchar => "UTF8Type"
  | varint => "IntegerType"
  | timeuuid => "TimeUUIDType"
  | inet => "InetAddressType"
  | date => "SimpleDateType"
  | time => "TimeType"
  | smallint => "ShortType"
  | tinyint => "ByteType"
  | duration => "DurationType"
  | empty => "EmptyType"
  | list inner _ => "ListType(" ++ inner.javaMarshalName ++ ")"
  | set inner _ => "SetType(" ++ inner.javaMarshalName ++ ")"
  | map key value _ => "MapType(" ++ key.javaMarshalName ++ "," ++ value.javaMarshalName ++ ")"
  | tuple types => "TupleType(" ++ ",".intercalate (marshalNames types) ++ ")"
  | composite types => "CompositeType(" ++ ",".intercalate (marshalNames types) ++ ")"
  | dynamicComposite aliases =>
    "DynamicCompositeType(" ++ ",".intercalate (marshalAliases aliases) ++ ")"
  | udt keyspace name fieldNames fieldTypes _ =>
    "UserType(" ++ ",".intercalate
      (keyspace :: hexEncode (utf8Bytes name) :: marshalFields fieldTypes fieldNames) ++ ")"
  | reversed inner => "ReversedType(" ++ inner.javaMarshalName ++ ")"
  | vector inner dimensions =>
    "VectorType(" ++ inner.javaMarshalName ++ "," ++ toString dimensions ++ ")"

def marshalNames : List CqlType → List String
  | [] => []
  | type :: types => type.javaMarshalName :: marshalNames types

def marshalAliases : List (UInt8 × CqlType) → List String
  | [] => []
  | entry :: aliases => marshalAlias entry :: marshalAliases aliases

def marshalAlias : UInt8 × CqlType → String
  | (key, type) => String.singleton (Char.ofNat key.toNat) ++ "=>" ++ type.javaMarshalName

def marshalFields : List CqlType → List String → List String
  | type :: types, name :: names =>
    (hexEncode (utf8Bytes name) ++ ":" ++ type.javaMarshalName) :: marshalFields types names
  | _, _ => []

end

def freeze : CqlType → CqlType
  | list inner _ => list inner true
  | set inner _ => set inner true
  | map key value _ => map key value true
  | udt keyspace name fieldNames fieldTypes _ => udt keyspace name fieldNames fieldTypes false
  | type => type

end CqlType

/-! ## Tokens -/

/-- The classes of characters of the standard library, of which only the ASCII part is given. -/
structure CharClass where
  isAlphanumeric : Char → Bool
  isWhitespace : Char → Bool
  isAlphanumeric_of_ascii : ∀ c : Char, c.toNat < 128 → isAlphanumeric c = c.isAlphanum
  isWhitespace_of_ascii : ∀ c : Char, c.toNat < 128 →
    isWhitespace c = decide (c = ' ' ∨ 9 ≤ c.toNat ∧ c.toNat ≤ 13)

/-- The classes without the characters beyond ASCII. -/
def CharClass.ascii : CharClass where
  isAlphanumeric := Char.isAlphanum
  isWhitespace c := decide (c = ' ' ∨ 9 ≤ c.toNat ∧ c.toNat ≤ 13)
  isAlphanumeric_of_ascii _ _ := rfl
  isWhitespace_of_ascii _ _ := rfl

/-- Why a type is not parsed. -/
inductive ParseError
  | unknownType (name : String)
  | malformed
  | unexpectedEof
deriving Repr, DecidableEq

abbrev Parser := StateT (List Char) (Except ParseError)

namespace Parser

variable (unicode : CharClass)

def peek : Parser (Option Char) := return (← get).head?

def skipWs : Parser Unit := modify (·.dropWhile unicode.isWhitespace)

def consumeChar (c : Char) : Parser Unit := do
  match ← get with
  | [] => throw .malformed
  | c' :: rest => if c' = c then set rest else throw .malformed

def consumeStr (s : List Char) : Parser Unit := do
  let input ← get
  if s.isPrefixOf input then set (input.drop s.length) else throw .malformed

/-- Reads the characters that are in the token; there must be one. -/
def readToken (inside : Char → Bool) : Parser (List Char) := do
  let input ← get
  if input.takeWhile inside = [] then throw .unexpectedEof
  set (input.dropWhile inside)
  return input.takeWhile inside

/-- A type name: alphanumeric characters, dots, underscores, hyphens. -/
def readTypeName : Parser (List Char) :=
  readToken fun c => unicode.isAlphanumeric c || c = '.' || c = '_' || c = '-'

/-- A token that may contain other characters, for the parameters of UDTs. -/
def readRawToken : Parser (List Char) := readToken fun c => c ≠ ',' && c ≠ ')' && c ≠ ':'

def readAlias : Parser UInt8 := do
  match ← get with
  | [] => throw .unexpectedEof
  | c :: rest =>
    if unicode.isWhitespace c || c = ',' || c = ')' || c = '=' then throw .malformed
    set rest
    if c.toNat < 33 || 127 < c.toNat then throw .malformed
    return UInt8.ofNat c.toNat

end Parser

def stripPackage (name : List Char) : List Char := (name.reverse.takeWhile (· ≠ '.')).reverse

def mapSimpleName (name : String) : Except ParseError CqlType :=
  match name with
  | "AsciiType" => .ok .ascii
  | "LongType" => .ok .bigint
  | "BytesType" => .ok .blob
  | "BooleanType" => .ok .boolean
  | "CounterColumnType" => .ok .counter
  | "DecimalType" => .ok .decimal
  | "DoubleType" => .ok .double
  | "FloatType" => .ok .float
  | "Int32Type" => .ok .int
  | "TimestampType" => .ok .timestamp
  | "UUIDType" => .ok .uuid
  | "UTF8Type" => .ok .varchar
  | "IntegerType" => .ok .varint
  | "TimeUUIDType" => .ok .timeuuid
  | "InetAddressType" => .ok .inet
  | "SimpleDateType" => .ok .date
  | "TimeType" => .ok .time
  | "ShortType" => .ok .smallint
  | "ByteType" => .ok .tinyint
  | "DurationType" => .ok .duration
  | "EmptyType" => .ok .empty
  | "DateType" => .ok .timestamp
  | other => .error (.unknownType other)

def digitValue (base : Nat) (c : Char) : Option Nat :=
  let value :=
    if '0' ≤ c ∧ c ≤ '9' then some (c.toNat - '0'.toNat)
    else if 'a' ≤ c ∧ c ≤ 'f' then some (c.toNat - 'a'.toNat + 10)
    else if 'A' ≤ c ∧ c ≤ 'F' then some (c.toNat - 'A'.toNat + 10)
    else none
  value.filter (· < base)

/-- An unsigned number with an optional plus sign, below a bound. -/
def parseUnsigned (base bound : Nat) (text : List Char) : Option Nat :=
  let digits := if text.head? = some '+' then text.tail else text
  if digits = [] then none
  else
    let value := digits.foldlM (fun acc c => (digitValue base c).map (base * acc + ·)) 0
    value.filter (· < bound)

def hexBytes : List Char → Option Bytes
  | [] => some []
  | c₁ :: c₂ :: rest => do
    let b ← parseUnsigned 16 256 [c₁, c₂]
    return UInt8.ofNat b :: (← hexBytes rest)
  | [_] => none

def hexDecodeStr (hex : List Char) : Option String :=
  if hex = [] then none
  else (hexBytes hex).bind fun bytes => String.fromUTF8? ⟨bytes.toArray⟩

/-- A hex-encoded name, or the token itself. -/
def decodeName (token : List Char) : String := (hexDecodeStr token).getD (String.ofList token)

/-- Inserts an alias among ascending ones; it replaces the comparator of the same alias. -/
def insertAlias (key : UInt8) (type : CqlType) : List (UInt8 × CqlType) → List (UInt8 × CqlType)
  | [] => [(key, type)]
  | entry :: aliases =>
    if key < entry.1 then (key, type) :: entry :: aliases
    else if key = entry.1 then (key, type) :: aliases
    else entry :: insertAlias key type aliases

/-! ## Types

The recursion is bounded by fuel; every call takes a character of the text, so that the length of
the text is enough. -/

namespace Parser

variable (unicode : CharClass)

def exactlyOne (params : List CqlType) : Parser CqlType :=
  match params with
  | [param] => return param
  | _ => throw .malformed

def parseMap (params : List CqlType) : Parser CqlType :=
  match params with
  | [key, value] => return .map key value false
  | _ => throw .malformed

mutual

def parseType : Nat → Parser CqlType
  | 0 => throw .unexpectedEof
  | fuel + 1 => do
    let name ← readTypeName unicode
    let short := String.ofList (stripPackage name)
    if (← peek) = some '(' then
      match short with
      | "FrozenType" => return (← exactlyOne (← parseTypeParams fuel)).freeze
      | "ReversedType" => return .reversed (← exactlyOne (← parseTypeParams fuel))
      | "ListType" => return .list (← exactlyOne (← parseTypeParams fuel)) false
      | "SetType" => return .set (← exactlyOne (← parseTypeParams fuel)) false
      | "MapType" => parseMap (← parseTypeParams fuel)
      | "TupleType" => return .tuple (← parseTypeParams fuel)
      | "VectorType" => parseVectorType fuel
      | "CompositeType" => return .composite (← parseTypeParams fuel)
      | "DynamicCompositeType" => parseDynamicCompositeType fuel
      | "UserType" => parseUserType fuel
      | _ => do
        let _ ← parseTypeParams fuel
        throw (.unknownType short)
    else
      mapSimpleName short

def parseTypeParams : Nat → Parser (List CqlType)
  | 0 => throw .unexpectedEof
  | fuel + 1 => do
    consumeChar '('
    let types ← parseTypeList fuel
    consumeChar ')'
    return types

def parseTypeList : Nat → Parser (List CqlType)
  | 0 => throw .unexpectedEof
  | fuel + 1 => do
    skipWs unicode
    if (← peek) = some ')' then return []
    let type ← parseType fuel
    skipWs unicode
    match ← peek with
    | some ',' =>
      modify List.tail
      return type :: (← parseTypeList fuel)
    | some ')' => return [type]
    | some _ => throw .malformed
    | none => throw .unexpectedEof

def parseVectorType : Nat → Parser CqlType
  | 0 => throw .unexpectedEof
  | fuel + 1 => do
    consumeChar '('
    skipWs unicode
    let inner ← parseType fuel
    skipWs unicode
    consumeChar ','
    skipWs unicode
    let token ← readRawToken
    let text := token.rdropWhile unicode.isWhitespace
    match parseUnsigned 10 (2 ^ 32) text with
    | none => throw .malformed
    | some dims =>
      if dims = 0 then throw .malformed
      skipWs unicode
      consumeChar ')'
      return .vector inner (UInt32.ofNat dims)

def parseDynamicCompositeType : Nat → Parser CqlType
  | 0 => throw .unexpectedEof
  | fuel + 1 => do
    consumeChar '('
    return .dynamicComposite (← parseAliases fuel [])

/-- The aliases up to the closing bracket. -/
def parseAliases : Nat → List (UInt8 × CqlType) → Parser (List (UInt8 × CqlType))
  | 0, _ => throw .unexpectedEof
  | fuel + 1, aliases => do
    skipWs unicode
    if (← peek) = some ')' then
      modify List.tail
      return aliases
    let key ← readAlias unicode
    skipWs unicode
    consumeStr ['=', '>']
    skipWs unicode
    let type ← parseType fuel
    let aliases := insertAlias key type aliases
    skipWs unicode
    match ← peek with
    | some ',' =>
      modify List.tail
      parseAliases fuel aliases
    | some ')' =>
      modify List.tail
      return aliases
    | some _ => throw .malformed
    | none => throw .unexpectedEof

def parseUserType : Nat → Parser CqlType
  | 0 => throw .unexpectedEof
  | fuel + 1 => do
    consumeChar '('
    let keyspace ← readRawToken
    consumeChar ','
    let name ← readRawToken
    let fields ← parseFields fuel
    consumeChar ')'
    return .udt (String.ofList keyspace) (decodeName name) (fields.map (·.1)) (fields.map (·.2)) true

/-- The fields of a UDT, each behind a comma. -/
def parseFields : Nat → Parser (List (String × CqlType))
  | 0 => throw .unexpectedEof
  | fuel + 1 => do
    if (← peek) ≠ some ',' then return []
    modify List.tail
    let name ← readRawToken
    consumeChar ':'
    let type ← parseType fuel
    return (decodeName name, type) :: (← parseFields fuel)

end

end Parser

def parseType (unicode : CharClass) (s : String) : Except ParseError CqlType := do
  let input := (s.toList.dropWhile unicode.isWhitespace).rdropWhile unicode.isWhitespace
  if input = [] then throw .unexpectedEof
  let (type, rest) ← (Parser.parseType unicode (2 * input.length + 2)).run input
  if rest.dropWhile unicode.isWhitespace ≠ [] then throw .malformed
  return type

end CassandraVerified.Types
