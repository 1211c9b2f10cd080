import CassandraVerified.Lib.Reader
import CassandraVerified.Storage.Compaction

/-!
# The data file

`Data.db` of both SSTable formats (`sstable/writer.rs`, `sstable/reader.rs`, `sstable/bti.rs` and
`sstable/tombstone_serializer.rs`): a header, the partitions one after the other, and a CRC, which
no reader here looks at. Lengths and counts are narrowed to the width of their field.
-/

namespace CassandraVerified.Storage

open Wire (beBytes Reader)

def writeI64 (i : Int64) : Bytes := beBytes 8 i.toUInt64.toNat

def writeI32 (i : Int32) : Bytes := beBytes 4 i.toUInt32.toNat

/-- A length of 32 bits, and then the bytes (`write_bytes_and_hash`). -/
def writeBytes (data : Bytes) : Bytes := beBytes 4 data.length ++ data

/-- Why a file is not read. -/
inductive ReadError where
  | unexpectedEof
  | invalidData (message : String)
deriving Repr, DecidableEq

abbrev FileReader := Reader ReadError

def readU8 : FileReader UInt8 := Reader.byte .unexpectedEof

def readUInt (width : Nat) : FileReader Nat := Reader.be .unexpectedEof width

def readExact (length : Nat) : FileReader Bytes := Reader.take .unexpectedEof length

def readI64 : FileReader Int64 := do
  let n ← readUInt 8
  return (UInt64.ofNat n).toInt64

def readI32 : FileReader Int32 := do
  let n ← readUInt 4
  return (UInt32.ofNat n).toInt32

/-- A length of 32 bits, and then that many bytes. -/
def readBytes : FileReader Bytes := do
  let length ← readUInt 4
  readExact length

/-- A byte as the error messages print it (`{:#x}`). -/
def hex (b : UInt8) : String := "0x" ++ String.ofList (Nat.toDigits 16 b.toNat)

def endOfPartition : UInt8 := 0
def rowMarker : UInt8 := 1
def partitionDeletionMarker : UInt8 := 3
def rangeTombstoneBoundMarker : UInt8 := 4

/-- When something was deleted (`DeletionTime` of the common crate). -/
structure DeletionTime where
  markedForDeleteAt : Int64
  localDeletionTime : Int32
deriving Repr, DecidableEq

/-- Timestamp, then local deletion time (`write_deletion_time`). -/
def writeDeletionTime (d : DeletionTime) : Bytes :=
  writeI64 d.markedForDeleteAt ++ writeI32 d.localDeletionTime

def readDeletionTime : FileReader DeletionTime := do
  let markedForDeleteAt ← readI64
  let localDeletionTime ← readI32
  return ⟨markedForDeleteAt, localDeletionTime⟩

def writePartitionDeletion (d : DeletionTime) : Bytes :=
  [partitionDeletionMarker] ++ writeDeletionTime d

/-- The kinds of clustering bounds. -/
inductive ClusteringBoundKind where
  | inclusiveStart
  | exclusiveStart
  | inclusiveEnd
  | exclusiveEnd
deriving Repr, DecidableEq

/-- A bound of a range tombstone. -/
structure ClusteringBound where
  kind : ClusteringBoundKind
  values : Bytes
deriving Repr, DecidableEq

/-- A bound of a range tombstone in the stream of rows (`rows/unfiltered.rs`; a mutation's marker of
the same name is a whole range). -/
inductive Rows.RangeTombstoneMarker where
  | opened (bound : ClusteringBound) (deletion : DeletionTime)
  | closed (bound : ClusteringBound) (deletion : DeletionTime)
  | boundary (bound : ClusteringBound) (closeDeletion openDeletion : DeletionTime)
deriving Repr, DecidableEq

def Rows.RangeTombstoneMarker.clusteringBound : Rows.RangeTombstoneMarker → ClusteringBound
  | opened bound _ => bound
  | closed bound _ => bound
  | boundary bound _ _ => bound

def encodeBoundKind : ClusteringBoundKind → UInt8
  | .inclusiveStart => 0
  | .exclusiveStart => 1
  | .inclusiveEnd => 2
  | .exclusiveEnd => 3

def decodeBoundKind (kind : UInt8) : FileReader ClusteringBoundKind :=
  if kind = 0 then return .inclusiveStart
  else if kind = 1 then return .exclusiveStart
  else if kind = 2 then return .inclusiveEnd
  else if kind = 3 then return .exclusiveEnd
  else throw (.invalidData ("invalid range tombstone bound kind: " ++ toString kind.toNat))

/-- Marker kind, bound and deletions of a range tombstone marker. -/
def writeRangeTombstoneMarker (marker : Rows.RangeTombstoneMarker) : Bytes :=
  [rangeTombstoneBoundMarker] ++
    match marker with
    | .opened bound deletion =>
      [0, encodeBoundKind bound.kind] ++ writeBytes bound.values ++ writeDeletionTime deletion
    | .closed bound deletion =>
      [1, encodeBoundKind bound.kind] ++ writeBytes bound.values ++ writeDeletionTime deletion
    | .boundary bound closeDeletion openDeletion =>
      [2, encodeBoundKind bound.kind] ++ writeBytes bound.values ++
        writeDeletionTime closeDeletion ++ writeDeletionTime openDeletion

/-- What follows the marker byte. -/
def readRangeTombstoneMarker : FileReader Rows.RangeTombstoneMarker := do
  let markerKind ← readU8
  let boundKind ← readU8
  let kind ← decodeBoundKind boundKind
  let values ← readBytes
  let deletion ← readDeletionTime
  if markerKind = 0 then return .opened ⟨kind, values⟩ deletion
  else if markerKind = 1 then return .closed ⟨kind, values⟩ deletion
  else if markerKind = 2 then
    let openDeletion ← readDeletionTime
    return .boundary ⟨kind, values⟩ deletion openDeletion
  else
    throw (.invalidData ("invalid range tombstone marker kind: " ++ toString markerKind.toNat))

/-- A local deletion time that is written only if it is there; a flag says whether it is. -/
def writeLocalDeletionTime (ldt : Option Int32) : Bytes := ldt.elim [] writeI32

def readLocalDeletionTime (present : Bool) : FileReader (Option Int32) :=
  if present then do
    let ldt ← readI32
    return some ldt
  else return none

/-- Bit 0 for a tombstone, bit 1 for a value and bit 2 for a local deletion time. -/
def cellFlags (c : Cell) : UInt8 :=
  (if c.isTombstone then 1 else 0) ||| (if c.value.isSome then 2 else 0) |||
    (if c.localDeletionTime.isSome then 4 else 0)

/-- Bit 0 for a tombstone and bit 1 for a local deletion time. -/
def rowFlags (r : Row) : UInt8 :=
  (if r.isTombstone then 1 else 0) ||| (if r.localDeletionTime.isSome then 2 else 0)

def nameBytes (column : String) : Bytes := column.toUTF8.data.toList

def writeCell (c : Cell) : Bytes :=
  beBytes 2 (nameBytes c.column).length ++ nameBytes c.column ++ writeI64 c.timestamp ++
    writeI32 c.ttl ++ [cellFlags c] ++ writeLocalDeletionTime c.localDeletionTime ++
    c.value.elim [] writeBytes

def writeRow (ck : Bytes) (r : Row) : Bytes :=
  [rowMarker] ++ writeBytes ck ++ [rowFlags r] ++ writeLocalDeletionTime r.localDeletionTime ++
    beBytes 4 r.cells.length ++ r.cells.flatMap writeCell

def readName (length : Nat) : FileReader String := do
  let name ← readExact length
  match String.fromUTF8? ⟨name.toArray⟩ with
  | some column => return column
  | none => throw (.invalidData "invalid utf-8 sequence")

def readValue (present : Bool) : FileReader (Option Bytes) :=
  if present then do
    let value ← readBytes
    return some value
  else return none

def readCell : FileReader Cell := do
  let length ← readUInt 2
  let column ← readName length
  let timestamp ← readI64
  let ttl ← readI32
  let flags ← readU8
  let localDeletionTime ← readLocalDeletionTime (flags &&& 4 ≠ 0)
  let value ← readValue (flags &&& 2 ≠ 0)
  return { column, value, timestamp, ttl, localDeletionTime, isTombstone := flags &&& 1 ≠ 0 }

/-- What follows the row marker. -/
def readRow : FileReader Row := do
  let clusteringKey ← readBytes
  let flags ← readU8
  let localDeletionTime ← readLocalDeletionTime (flags &&& 2 ≠ 0)
  let cellCount ← readUInt 4
  let cells ← Reader.times readCell cellCount
  return { clusteringKey, cells, isTombstone := flags &&& 1 ≠ 0, localDeletionTime }

/-- The tombstone of a partition, its rows and the end marker. -/
def writePartitionBody (p : PartitionData) : Bytes :=
  p.tombstone.elim [] (fun t => writePartitionDeletion ⟨t.1, t.2⟩) ++
    p.rows.toList.flatMap (fun e => writeRow e.1 e.2) ++ [endOfPartition]

def writeEntry (e : Bytes × PartitionData) : Bytes := writeBytes e.1 ++ writePartitionBody e.2

/-- The partition so far, or the whole one at the end marker. `unexpected` is what an error says of
any other byte. -/
def readItem (unexpected : String) (p : PartitionData) :
    FileReader (PartitionData ⊕ PartitionData) := do
  let marker ← readU8
  if marker = endOfPartition then return .inr p
  else if marker = partitionDeletionMarker then
    let d ← readDeletionTime
    return .inl (p.setTombstone d.markedForDeleteAt d.localDeletionTime)
  else if marker = rangeTombstoneBoundMarker then
    let _ ← readRangeTombstoneMarker
    return .inl p
  else if marker = rowMarker then
    let row ← readRow
    return .inl (p.applyRow row)
  else throw (.invalidData (unexpected ++ hex marker))

def readPartitionBody (unexpected : String) : FileReader PartitionData :=
  Reader.loop .unexpectedEof (readItem unexpected) .empty

/-- `b"SSDT"` and version 1. -/
def dataHeader : Bytes := [0x53, 0x53, 0x44, 0x54, 1]

/-- The header and the partitions, without the CRC. -/
def dataBody (partitions : Source) : Bytes := dataHeader ++ partitions.flatMap writeEntry

/-- The whole file; `crc32` is the checksum of `crc32fast`. -/
def dataFile (crc32 : Bytes → UInt32) (partitions : Source) : Bytes :=
  dataBody partitions ++ beBytes 4 (crc32 (dataBody partitions)).toNat

/-- Where the entries of a list that are written by `write` begin if the first one begins at
`offset`. -/
def entryOffsets {α : Type} (write : Bytes × α → Bytes) (offset : Nat) :
    List (Bytes × α) → List (Bytes × Nat)
  | [] => []
  | e :: entries => (e.1, offset) :: entryOffsets write (offset + (write e).length) entries

/-- Where the partitions of a list begin. -/
def dataOffsets (offset : Nat) (partitions : Source) : List (Bytes × Nat) :=
  entryOffsets writeEntry offset partitions

/-- The partition at an offset, if the key there is the one that is looked for. -/
def readPartitionAt (unexpected : String) (data : Bytes) (offset : Nat) (partitionKey : Bytes) :
    Except ReadError (Option PartitionData) :=
  let reader : FileReader (Option PartitionData) := do
    let pk ← readBytes
    if pk ≠ partitionKey then return none
    else
      let p ← readPartitionBody unexpected
      return some p
  (reader.run (data.drop offset)).map Prod.fst

/-- One partition of a scan, which is over in front of the CRC, the last four bytes, and at a
partition key of length 0. -/
def scanEntry (result : Source) : FileReader (Source ⊕ Source) := do
  let rest ← get
  if rest.length ≤ 4 then return .inr result
  else
    let pkLen ← readUInt 4
    if pkLen = 0 then return .inr result
    else
      let pk ← readExact pkLen
      let p ← readPartitionBody "unexpected marker: "
      return .inl (result ++ [(pk, p)])

/-- All partitions of the file (`iter_partitions`). -/
def scanPartitions (data : Bytes) : Except ReadError Source :=
  ((Reader.loop .unexpectedEof scanEntry []).run (data.drop dataHeader.length)).map Prod.fst

/-! ## What fits the fields of the file -/

def Cell.NameFits (c : Cell) : Prop := (nameBytes c.column).length ≤ 65535

def Cell.ValueFits (c : Cell) : Prop := ∀ v ∈ c.value, v.length < 2 ^ 32

def Row.NamesFit (r : Row) : Prop := ∀ c ∈ r.cells, c.NameFits

/-- All lengths of the row fit their fields. -/
structure Row.LengthsFit (r : Row) : Prop where
  clusteringKey : r.clusteringKey.length < 2 ^ 32
  cells : r.cells.length < 2 ^ 32
  values : ∀ c ∈ r.cells, c.ValueFits

def PartitionData.NamesFit (p : PartitionData) : Prop :=
  ∀ (ck : Bytes) (r : Row), p.rows[ck]? = some r → r.NamesFit

def PartitionData.LengthsFit (p : PartitionData) : Prop :=
  ∀ (ck : Bytes) (r : Row), p.rows[ck]? = some r → r.LengthsFit

/-- All column names of a list of partitions are at most 65535 bytes long. -/
def Source.NamesFit (s : Source) : Prop := ∀ e ∈ s, e.2.NamesFit

/-- All keys, values and cell counts of a list of partitions are below `2 ^ 32`. -/
def Source.LengthsFit (s : Source) : Prop := ∀ e ∈ s, e.1.length < 2 ^ 32 ∧ e.2.LengthsFit

end CassandraVerified.Storage
