import CassandraVerified.Storage.Format.Big
import CassandraVerified.Storage.Rows

/-!
# Partitions of rich rows on disk

`write_filtered_partitions` and `get_filtered_partition` of `sstable/writer.rs` and
`sstable/reader.rs`: the data file of the Big format, with range tombstone markers between the rows.
A rich row is written as a plain one. `FilteredPartition.Survives` says what a partition must not
have in order to come back the same.
-/

namespace CassandraVerified.Storage

open Wire (beBytes Reader)

def writeUnfiltered : Unfiltered → Bytes
  | .row data => writeRow data.toRow.clusteringKey data.toRow
  | .marker m => writeRangeTombstoneMarker m

/-- The deletion of a partition, its static row, its rows and markers, and the end marker. -/
def writeFilteredBody (p : FilteredPartition) : Bytes :=
  (if p.partitionDeletion.isLive then [] else writePartitionDeletion p.partitionDeletion) ++
    p.staticRow.elim [] (fun r => writeRow r.toRow.clusteringKey r.toRow) ++
    p.items.flatMap writeUnfiltered ++ [endOfPartition]

abbrev FilteredSource := List (Bytes × FilteredPartition)

def writeFilteredEntry (e : Bytes × FilteredPartition) : Bytes :=
  writeBytes e.1 ++ writeFilteredBody e.2

/-- The header and the partitions, without the CRC. -/
def filteredDataBody (partitions : FilteredSource) : Bytes :=
  dataHeader ++ partitions.flatMap writeFilteredEntry

def filteredDataFile (crc32 : Bytes → UInt32) (partitions : FilteredSource) : Bytes :=
  filteredDataBody partitions ++ beBytes 4 (crc32 (filteredDataBody partitions)).toNat

/-- `SSTableWriter::write_filtered_partitions`. -/
def writeFilteredPartitions (env : WriterEnv) (partitions : FilteredSource) :
    Except String BigFiles :=
  if (filteredDataFile env.crc32 partitions).length < 2 ^ 64 then
    .ok
      { data := filteredDataFile env.crc32 partitions
        index := indexFile (entryOffsets writeFilteredEntry dataHeader.length partitions)
        filter := (BloomFilter.ofKeys env.sizing (partitions.map Prod.fst)).file }
  else .error "file too large"

/-- A row that was read. One with the empty clustering key is taken for the static row. -/
def FilteredPartition.addRow (p : FilteredPartition) (data : RowData) : FilteredPartition :=
  if data.clusteringKey = [] then { p with staticRow := some { data with isStatic := true } }
  else { p with items := p.items ++ [.row data] }

/-- One item of a partition that is being read. -/
def readFilteredItem (p : FilteredPartition) :
    FileReader (FilteredPartition ⊕ FilteredPartition) := do
  let marker ← readU8
  if marker = endOfPartition then return .inr p
  else if marker = partitionDeletionMarker then
    let d ← readDeletionTime
    return .inl { p with partitionDeletion := d }
  else if marker = rangeTombstoneBoundMarker then
    let m ← readRangeTombstoneMarker
    return .inl { p with items := p.items ++ [.marker m] }
  else if marker = rowMarker then
    let row ← readRow
    return .inl (p.addRow (.ofRow row))
  else throw (.invalidData ("unexpected marker: " ++ hex marker))

def readFilteredPartitionBody (partitionKey : Bytes) : FileReader FilteredPartition :=
  Reader.loop .unexpectedEof readFilteredItem
    { partitionKey, partitionDeletion := .live, staticRow := none, items := [] }

/-- The partition at an offset, if the key there is the one that is looked for. -/
def readFilteredPartitionAt (data : Bytes) (offset : Nat) (partitionKey : Bytes) :
    Except ReadError (Option FilteredPartition) :=
  let reader : FileReader (Option FilteredPartition) := do
    let pk ← readBytes
    if pk ≠ partitionKey then return none
    else
      let p ← readFilteredPartitionBody pk
      return some p
  (reader.run (data.drop offset)).map Prod.fst

/-- Reads a single partition: the filter, the index and the data file. The key cache is not used. -/
def BigReader.getFilteredPartition (r : BigReader) (partitionKey : Bytes) :
    Except ReadError (Option FilteredPartition) :=
  if r.mightContainKey partitionKey then
    match r.searchIndex partitionKey with
    | none => .ok none
    | some offset => readFilteredPartitionAt r.data offset partitionKey
  else .ok none

/-- The cell of a column or, in a collection, of a path. -/
def ColumnData.cell? : ColumnData → Option Bytes → Option Cell
  | simple cell, none => some cell.toCell
  | complex data, some path => data.cells[path]?.map CellData.toCell
  | simple _, some _ => none
  | complex _, none => none

def RowData.cell? (r : RowData) (column : String) (path : Option Bytes) : Option Cell :=
  r.columns[column]?.bind (·.cell? path)

/-- Under the same enclosing deletion: the same position is deleted at the same time, and at every
time the same row and cells are live. -/
structure RowData.SameUnder (enclosing : DeletionTime) (r r' : RowData) : Prop where
  clusteringKey : r'.clusteringKey = r.clusteringKey
  deletion : r'.deletion = r.deletion
  live : ∀ now, (r'.liveDataAfter now enclosing).isSome = (r.liveDataAfter now enclosing).isSome
  cells : ∀ now column path, (r'.liveDataAfter now enclosing).bind (·.cell? column path) =
      (r.liveDataAfter now enclosing).bind (·.cell? column path)

/-- Rows and markers one by one, with the range tombstones that are open at each row. -/
inductive SameItems : OpenDeletions → List Unfiltered → List Unfiltered → Prop
  | nil {t : OpenDeletions} : SameItems t [] []
  | row {t : OpenDeletions} {r r' : RowData} {items items' : List Unfiltered}
      (hrow : r.SameUnder t.activeDeletion r') (hitems : SameItems t items items') :
      SameItems t (.row r :: items) (.row r' :: items')
  | marker {t : OpenDeletions} {m : Rows.RangeTombstoneMarker} {items items' : List Unfiltered}
      (hitems : SameItems (t.applyToMarker m) items items') :
      SameItems t (.marker m :: items) (.marker m :: items')

/-- The same rows and cells are live at every time, and the same positions are deleted with the same
timestamps. -/
structure FilteredPartition.Same (p p' : FilteredPartition) : Prop where
  partitionDeletion : p'.partitionDeletion = p.partitionDeletion
  staticRow : Option.Rel (RowData.SameUnder p.partitionDeletion) p.staticRow p'.staticRow
  items : SameItems ⟨p.partitionDeletion, []⟩ p.items p'.items

/-- The partition of a key is read back as one that cannot be told from it. -/
def BigFiles.Keeps (files : BigFiles) (partitionKey : Bytes) (p : FilteredPartition) : Prop :=
  ∀ (keyspace table : String) (generation : Nat), ∃ r p',
    BigReader.openFiles keyspace table generation files = .ok r ∧
      r.getFilteredPartition partitionKey = .ok (some p') ∧ p.Same p'

/-- The cell that is left of a collection when the paths of its cells are forgotten. -/
def ComplexColumnData.merged (c : ComplexColumnData) : Option CellData :=
  (TreeMap.values c.cells).foldl (fun merged cell => some (merged.elim cell (·.mergeWith cell))) none

/-- What a row must be like in order to come back. -/
structure RowData.Survives (enclosing : DeletionTime) (r : RowData) : Prop where
  /-- If the row is deleted, then at the highest timestamp of its cells, or at 0. -/
  deletion : r.deletion.isLive ∨ r.deletion.markedForDeleteAt = r.toRow.maxTimestamp.getD 0
  /-- No cell of a collection is ever live, nor would the newest of them be without the deletion of
  the collection. -/
  complex : ∀ (name : String) (data : ComplexColumnData),
    r.columns[name]? = some (.complex data) →
    ∀ now, data.liveCellsAfter now (r.activeDeletion enclosing) = [] ∧
      ∀ cell ∈ data.merged, cell.isLiveAfter now (r.activeDeletion enclosing) = false
  /-- Whenever the primary key is live, so is a cell. -/
  liveness : ∀ now, r.livenessInfo.isLive now →
    rowTimestampSurvives r.livenessInfo.timestamp (r.activeDeletion enclosing) →
    ∃ (name : String) (cell : CellData), r.columns[name]? = some (.simple cell) ∧
      cell.isLiveAfter now (r.activeDeletion enclosing)

/-- All rows come back as rows, under the range tombstones that are open there. -/
def ItemsSurvive : OpenDeletions → List Unfiltered → Prop
  | _, [] => True
  | t, .row r :: items =>
    r.clusteringKey ≠ [] ∧ r.Survives t.activeDeletion ∧ ItemsSurvive t items
  | t, .marker m :: items => ItemsSurvive (t.applyToMarker m) items

/-- The static row has the empty clustering key and no other row has, and all rows come back. -/
structure FilteredPartition.Survives (p : FilteredPartition) : Prop where
  staticRow : ∀ r ∈ p.staticRow, r.clusteringKey = [] ∧ r.Survives p.partitionDeletion
  items : ItemsSurvive ⟨p.partitionDeletion, []⟩ p.items

/-- Column names of at most 65535 bytes, and lengths and counts below `2 ^ 32`. -/
def RowData.Fits (r : RowData) : Prop := r.toRow.NamesFit ∧ r.toRow.LengthsFit

def Unfiltered.Fits : Unfiltered → Prop
  | row data => data.Fits
  | marker m => m.clusteringBound.values.length < 2 ^ 32

/-- All rows and markers fit their fields. -/
structure FilteredPartition.Fits (p : FilteredPartition) : Prop where
  staticRow : ∀ r ∈ p.staticRow, r.Fits
  items : ∀ item ∈ p.items, item.Fits

def FilteredSource.Fits (s : FilteredSource) : Prop :=
  s.length < 2 ^ 32 ∧ ∀ e ∈ s, e.1.length < 2 ^ 32 ∧ e.2.Fits

end CassandraVerified.Storage
