import CassandraVerified.Storage.Format.Data

/-!
# Rich rows

The rows of `rows/` and `partitions/filtered_partition.rs`: besides its columns a row has the
liveness of its primary key and a deletion of its own, a column may be a collection of cells by
path, and range tombstones are markers between the rows. `row_data_to_row` and `From<&Row> for
RowData` go to and from the rows of `Storage/Partition`. `PurgeTransform` is
that of `transform/transformation.rs`, as it is applied to rows.
-/

namespace CassandraVerified.Storage

open Std (ExtTreeMap)

def noTimestamp : Int64 := Int64.minValue

def noDeletionTime : Int32 := Int32.maxValue

namespace DeletionTime

/-- Nothing is deleted (`DeletionTime::LIVE`). -/
def live : DeletionTime := ⟨noTimestamp, noDeletionTime⟩

def isLive (d : DeletionTime) : Bool :=
  d.markedForDeleteAt = noTimestamp ∧ d.localDeletionTime = noDeletionTime

/-- The higher timestamp and, at equal timestamps, the later local deletion time. -/
def supersedes (d other : DeletionTime) : Bool := d.markedForDeleteAt > other.markedForDeleteAt ∨
    d.markedForDeleteAt = other.markedForDeleteAt ∧ d.localDeletionTime > other.localDeletionTime

/-- The deletion that counts where two overlap. -/
def newer (d other : DeletionTime) : DeletionTime := if d.supersedes other then d else other

end DeletionTime

/-- Whether something written at a timestamp outlives a deletion. -/
def rowTimestampSurvives (timestamp : Int64) (deletion : DeletionTime) : Bool :=
  deletion.isLive || timestamp > deletion.markedForDeleteAt

/-- When the primary key was written, and until when it lives. -/
structure LivenessInfo where
  timestamp : Int64
  ttl : Int32
  localDeletionTime : Int32
deriving Repr, DecidableEq

namespace LivenessInfo

/-- A row without a primary-key marker. -/
def empty : LivenessInfo := ⟨noTimestamp, 0, noDeletionTime⟩

def create (timestamp : Int64) : LivenessInfo := ⟨timestamp, 0, noDeletionTime⟩

def isEmpty (l : LivenessInfo) : Bool := l.timestamp = noTimestamp

def isExpiring (l : LivenessInfo) : Bool := l.ttl ≠ 0

def isExpired (l : LivenessInfo) (nowInSeconds : Int32) : Bool :=
  l.isExpiring && nowInSeconds ≥ l.localDeletionTime

def isLive (l : LivenessInfo) (nowInSeconds : Int32) : Bool :=
  !l.isEmpty && !l.isExpired nowInSeconds

end LivenessInfo

/-- A cell with its path, if it belongs to a collection. The highest local deletion time stands for
none. -/
structure CellData where
  column : String
  value : Option Bytes
  timestamp : Int64
  ttl : Int32
  localDeletionTime : Int32
  path : Option Bytes
deriving Repr, DecidableEq

namespace CellData

def isTombstone (c : CellData) : Bool := c.value.isNone && c.localDeletionTime ≠ noDeletionTime

def isExpiring (c : CellData) : Bool := c.ttl ≠ 0

def isLive (c : CellData) (nowInSeconds : Int32) : Bool :=
  if c.isTombstone then false
  else if c.isExpiring then nowInSeconds < c.localDeletionTime
  else true

/-- As `Cell.mergeWith`. -/
def mergeWith (c other : CellData) : CellData :=
  if other.timestamp > c.timestamp then other
  else if other.timestamp = c.timestamp ∧ other.isTombstone ∧ ¬ c.isTombstone then other
  else c

/-- `From<&Cell> for CellData`. -/
def ofCell (c : Cell) : CellData where
  column := c.column
  value := c.value
  timestamp := c.timestamp
  ttl := c.ttl
  localDeletionTime := c.localDeletionTime.getD noDeletionTime
  path := none

/-- `From<&CellData> for Cell`. -/
def toCell (c : CellData) : Cell where
  column := c.column
  value := c.value
  timestamp := c.timestamp
  ttl := c.ttl
  localDeletionTime := if c.localDeletionTime = noDeletionTime then none else some c.localDeletionTime
  isTombstone := c.isTombstone

/-- Live at a time, and not older than a deletion. -/
def isLiveAfter (c : CellData) (nowInSeconds : Int32) (deletion : DeletionTime) : Bool :=
  c.isLive nowInSeconds && rowTimestampSurvives c.timestamp deletion

end CellData

/-- A collection: cells by path, and a deletion of the cells up to a timestamp. -/
structure ComplexColumnData where
  column : String
  complexDeletion : DeletionTime
  cells : ExtTreeMap Bytes CellData
  /-- Every cell is one of this column. -/
  named : ∀ (path : Bytes) (c : CellData), cells[path]? = some c → c.column = column
deriving DecidableEq

namespace ComplexColumnData

/-- Whether a cell outlives the deletion of the collection and another one around it. -/
def retains (c : ComplexColumnData) (nowInSeconds : Int32) (enclosingDeletion : DeletionTime)
    (cell : CellData) : Bool :=
  cell.isLive nowInSeconds && rowTimestampSurvives cell.timestamp c.complexDeletion &&
    rowTimestampSurvives cell.timestamp enclosingDeletion

def liveCellsAfter (c : ComplexColumnData) (nowInSeconds : Int32)
    (enclosingDeletion : DeletionTime) : List CellData :=
  (TreeMap.values c.cells).filter (c.retains nowInSeconds enclosingDeletion)

def isEmptyAfter (c : ComplexColumnData) (nowInSeconds : Int32)
    (enclosingDeletion : DeletionTime) : Bool :=
  (c.liveCellsAfter nowInSeconds enclosingDeletion).isEmpty

def retainLiveCellsAfter (c : ComplexColumnData) (nowInSeconds : Int32)
    (enclosingDeletion : DeletionTime) : ComplexColumnData :=
  { c with
    cells := c.cells.filterMap fun _ cell =>
      if c.retains nowInSeconds enclosingDeletion cell then some cell else none
    named := fun path cell h => by
      rw [ExtTreeMap.getElem?_filterMap', Option.bind_eq_some_iff] at h
      obtain ⟨old, hold, hcell⟩ := h
      split at hcell
      · exact Option.some.inj hcell ▸ c.named path old hold
      · cases hcell }

end ComplexColumnData

/-- The cells of a column. -/
inductive ColumnData where
  | simple (cell : CellData)
  | complex (data : ComplexColumnData)
deriving DecidableEq

namespace ColumnData

def column : ColumnData → String
  | simple cell => cell.column
  | complex data => data.column

/-- The cells as they are written, without their paths. -/
def toCells : ColumnData → List Cell
  | simple cell => [cell.toCell]
  | complex data => (TreeMap.values data.cells).map CellData.toCell

/-- Whether anything in the column is live at a time, after a deletion. -/
def isLiveAfter (c : ColumnData) (nowInSeconds : Int32) (deletion : DeletionTime) : Bool :=
  match c with
  | simple cell => cell.isLiveAfter nowInSeconds deletion
  | complex data => !data.isEmptyAfter nowInSeconds deletion

/-- What is left of the column at a time, after a deletion. -/
def liveAfter (c : ColumnData) (nowInSeconds : Int32) (deletion : DeletionTime) :
    Option ColumnData :=
  match c with
  | simple cell => if cell.isLiveAfter nowInSeconds deletion then some c else none
  | complex data =>
    let retained := data.retainLiveCellsAfter nowInSeconds deletion
    if retained.cells.isEmpty then none else some (complex retained)

theorem liveAfter_column {c c' : ColumnData} {nowInSeconds : Int32} {deletion : DeletionTime}
    (h : c.liveAfter nowInSeconds deletion = some c') : c'.column = c.column := by
  cases c with
  | simple cell =>
    simp only [liveAfter, Option.ite_none_right_eq_some] at h
    rw [← Option.some.inj h.2]
  | complex data =>
    simp only [liveAfter, Option.ite_none_left_eq_some] at h
    rw [← Option.some.inj h.2]
    rfl

end ColumnData

/-- A row on the read path. -/
structure RowData where
  clusteringKey : Bytes
  livenessInfo : LivenessInfo
  deletion : DeletionTime
  columns : ExtTreeMap String ColumnData
  isStatic : Bool
  /-- Every column is filed under its own name. -/
  keyed : ∀ (name : String) (c : ColumnData), columns[name]? = some c → c.column = name
deriving DecidableEq

namespace RowData

def new (clusteringKey : Bytes) : RowData where
  clusteringKey := clusteringKey
  livenessInfo := .empty
  deletion := .live
  columns := ∅
  isStatic := false
  keyed := by simp

/-- The deletion that counts for the row when another one is around it. -/
def activeDeletion (r : RowData) (enclosingDeletion : DeletionTime) : DeletionTime :=
  enclosingDeletion.newer r.deletion

def hasLiveDataAfter (r : RowData) (nowInSeconds : Int32) (enclosingDeletion : DeletionTime) :
    Bool :=
  let active := r.activeDeletion enclosingDeletion
  if r.livenessInfo.isLive nowInSeconds && rowTimestampSurvives r.livenessInfo.timestamp active then
    true
  else (TreeMap.values r.columns).any (·.isLiveAfter nowInSeconds active)

/-- The row without what a deletion covers or what is not live at a time. -/
def retainLive (r : RowData) (nowInSeconds : Int32) (active : DeletionTime) : RowData :=
  { r with
    livenessInfo :=
      if rowTimestampSurvives r.livenessInfo.timestamp active then r.livenessInfo else .empty
    columns := r.columns.filterMap fun _ c => c.liveAfter nowInSeconds active
    keyed := fun name c h => by
      rw [ExtTreeMap.getElem?_filterMap', Option.bind_eq_some_iff] at h
      obtain ⟨old, hold, hc⟩ := h
      exact (ColumnData.liveAfter_column hc).trans (r.keyed name old hold) }

/-- What is live of a row, if anything is. -/
def liveDataAfter (r : RowData) (nowInSeconds : Int32) (enclosingDeletion : DeletionTime) :
    Option RowData :=
  let active := r.activeDeletion enclosingDeletion
  let row := r.retainLive nowInSeconds active
  if row.hasLiveDataAfter nowInSeconds active then some row else none

/-- The column stored under a name after a simple cell arrived. A cell for a collection is
dropped. -/
def mergedColumn (cell : CellData) : Option ColumnData → Option ColumnData
  | none => some (.simple cell)
  | some (.simple existing) => some (.simple (existing.mergeWith cell))
  | some (.complex existing) => some (.complex existing)

theorem mergedColumn_column {cell : CellData} {old : Option ColumnData} {c : ColumnData}
    (h : mergedColumn cell old = some c) (hold : ∀ d ∈ old, d.column = cell.column) :
    c.column = cell.column := by
  cases old with
  | none => exact Option.some.inj h ▸ rfl
  | some d =>
    have hd := hold d rfl
    cases d with
    | simple existing =>
      rw [← Option.some.inj h]
      change (existing.mergeWith cell).column = cell.column
      unfold CellData.mergeWith
      split_ifs
      · rfl
      · rfl
      · exact hd
    | complex existing => exact Option.some.inj h ▸ hd

def addCell (r : RowData) (cell : CellData) : RowData :=
  { r with
    columns := r.columns.alter cell.column (mergedColumn cell)
    keyed := fun name c h => by
      simp only [ExtTreeMap.getElem?_alter, Std.compare_eq_iff_eq] at h
      split at h
      · next hname => exact (mergedColumn_column h fun d hd => r.keyed _ d hd).trans hname
      · exact r.keyed name c h }

/-- `row_data_to_row`: neither the liveness of the primary key nor the timestamp of the deletion nor
the deletions of collections have a place in it. -/
def toRow (r : RowData) : Row where
  clusteringKey := r.clusteringKey
  cells := (TreeMap.values r.columns).flatMap ColumnData.toCells
  isTombstone := !r.deletion.isLive
  localDeletionTime := if r.deletion.isLive then none else some r.deletion.localDeletionTime

end RowData

/-- The highest timestamp of a row's cells (`map(|c| c.timestamp).max()`). -/
def Row.maxTimestamp (r : Row) : Option Int64 :=
  match r.cells with
  | [] => none
  | c :: cs => some (cs.foldl (fun ts c => if c.timestamp ≥ ts then c.timestamp else ts) c.timestamp)

/-- `From<&Row> for RowData`: a deletion gets the highest timestamp of the cells, or 0. -/
def RowData.ofRow (r : Row) : RowData :=
  let row := RowData.new r.clusteringKey
  let row :=
    if r.isTombstone then
      { row with deletion := ⟨r.maxTimestamp.getD 0, r.localDeletionTime.getD noDeletionTime⟩ }
    else row
  r.cells.foldl (fun data c => data.addCell (.ofCell c)) row

/-- A row, or a bound of a range tombstone. -/
inductive Unfiltered where
  | row (data : RowData)
  | marker (m : Rows.RangeTombstoneMarker)
deriving DecidableEq

/-- A partition on the read path. -/
structure FilteredPartition where
  partitionKey : Bytes
  partitionDeletion : DeletionTime
  staticRow : Option RowData
  items : List Unfiltered
deriving DecidableEq

/-- The deletions around the place that a read has reached (`RangeTombstoneLivenessTransform` of
`transform/transformation.rs`). -/
structure OpenDeletions where
  partitionDeletion : DeletionTime
  openDeletions : List DeletionTime

namespace OpenDeletions

def activeDeletion (t : OpenDeletions) : DeletionTime :=
  t.openDeletions.foldl (fun active deletion => deletion.newer active) t.partitionDeletion

/-- Closes the deletion that was opened last of those that are equal to `deletion`. -/
def closeDeletion (t : OpenDeletions) (deletion : DeletionTime) : OpenDeletions :=
  { t with openDeletions := (t.openDeletions.reverse.erase deletion).reverse }

def openDeletion (t : OpenDeletions) (deletion : DeletionTime) : OpenDeletions :=
  { t with openDeletions := t.openDeletions ++ [deletion] }

def applyToMarker (t : OpenDeletions) : Rows.RangeTombstoneMarker → OpenDeletions
  | .opened _ deletion => t.openDeletion deletion
  | .closed _ deletion => t.closeDeletion deletion
  | .boundary _ closeDeletion openDeletion =>
    (t.closeDeletion closeDeletion).openDeletion openDeletion

end OpenDeletions

def DeletionTime.isPurgeable (d : DeletionTime) (gcBeforeSeconds : Int32) : Bool :=
  !d.isLive && d.localDeletionTime < gcBeforeSeconds

namespace RowData

def hasLiveData (r : RowData) (nowInSeconds : Int32) : Bool := r.hasLiveDataAfter nowInSeconds .live

def clearPurgeable (r : RowData) (gcBefore : Int32) : RowData :=
  if r.deletion.isPurgeable gcBefore then { r with deletion := .live } else r

end RowData

/-- Drops what is deleted and past its grace period. -/
structure PurgeTransform where
  gcBefore : Int32
  nowInSeconds : Int32
deriving Repr, DecidableEq

def PurgeTransform.applyToRow (t : PurgeTransform) (row : RowData) : Option RowData :=
  let row := row.clearPurgeable t.gcBefore
  if !row.hasLiveData t.nowInSeconds && row.deletion.isLive then none else some row

end CassandraVerified.Storage
