import CassandraVerified.Lib.Wire
import CassandraVerified.Storage.Partition

/-!
# Read responses

`read/response.rs`: a data response holds the live rows of a partition, filtered at the replica, and
counts the tombstones met on the way. A digest is a hash of a partition. The hasher
(`DefaultHasher`) is a function of the bytes that are fed to it.
-/

namespace CassandraVerified.Read

open Storage
open Wire (leBytes)

/-- The bytes of a digest. There are eight; leaving this open allows for a hasher without
collisions. -/
abbrev Digest := Bytes

def Digest.empty : Digest := List.replicate 8 0

/-- The hasher, from the bytes fed to it to those that it finishes with. -/
abbrev Hasher := Bytes → Digest

/-- What `Hash` feeds for a `bool`; numbers are fed in the order of the machine, least byte first. -/
def fedBool (b : Bool) : Bytes := [if b then 1 else 0]

/-- What `Hash` feeds for an `i32`. -/
def fedInt32 (n : Int32) : Bytes := leBytes 4 n.toUInt32.toNat

/-- What `Hash` feeds for an `i64`. -/
def fedInt64 (n : Int64) : Bytes := leBytes 8 n.toUInt64.toNat

/-- A byte string is fed with its length. -/
def fedBytes (bs : Bytes) : Bytes := leBytes 8 bs.length ++ bs

/-- A text is fed with an end mark. -/
def fedString (s : String) : Bytes := s.toUTF8.toList ++ [0xFF]

/-- An optional value is fed with its discriminant. -/
def fedOption {α : Type} (fed : α → Bytes) : Option α → Bytes
  | none => leBytes 8 0
  | some a => leBytes 8 1 ++ fed a

/-- What the digest covers of a cell. The local deletion time is not part of it. -/
def hashedCell (cell : Cell) : Bytes :=
  fedString cell.column ++ fedOption fedBytes cell.value ++ fedInt64 cell.timestamp ++
    fedInt32 cell.ttl ++ fedBool cell.isTombstone

/-- What the digest covers of a row; nothing tells how many cells there are. -/
def hashedRow (row : Row) : Bytes :=
  fedBytes row.clusteringKey ++ fedBool row.isTombstone ++
    fedOption fedInt32 row.localDeletionTime ++ row.cells.flatMap hashedCell

/-- What the digest covers of a partition. -/
def hashedPartition (data : PartitionData) : Bytes :=
  fedOption fedInt64 data.tombstoneTimestamp ++
    fedOption fedInt32 data.tombstoneLocalDeletionTime ++ data.rowList.flatMap hashedRow

/-- The digest of a stored partition. -/
def Digest.fromPartition (hasher : Hasher) (data : PartitionData) : Digest :=
  hasher (hashedPartition data)

/-- How many tombstones a read may meet. -/
structure TombstoneThresholds where
  warnThreshold : Nat := 1000
  failThreshold : Nat := 100000
deriving Repr, DecidableEq

/-- The tombstones that a read has met. -/
structure TombstoneTracker where
  count : Nat
  thresholds : TombstoneThresholds
  warningIssued : Bool
  warnings : List String
deriving Repr, DecidableEq

namespace TombstoneTracker

def new (thresholds : TombstoneThresholds) : TombstoneTracker where
  count := 0
  thresholds := thresholds
  warningIssued := false
  warnings := []

/-- Warns once, when the count reaches the warning threshold. -/
def checkThresholds (t : TombstoneTracker) : TombstoneTracker :=
  if !t.warningIssued && t.count ≥ t.thresholds.warnThreshold then
    let count := t.count
    let warnThreshold := t.thresholds.warnThreshold
    { t with
      warningIssued := true
      warnings := t.warnings ++
        [s!"Read {count} tombstones, which exceeds the warning threshold of {warnThreshold}"] }
  else t

def track (t : TombstoneTracker) : TombstoneTracker :=
  { t with count := t.count + 1 }.checkThresholds

def trackPartitionTombstone : TombstoneTracker → TombstoneTracker := track

def trackRowTombstone : TombstoneTracker → TombstoneTracker := track

def trackCellTombstone : TombstoneTracker → TombstoneTracker := track

end TombstoneTracker

/-- The answer for one partition. -/
structure PartitionResult where
  partitionKey : Bytes
  /-- The live rows and the tombstone of the partition; nothing if it has neither. -/
  data : Option PartitionData
  liveRowCount : Nat
  /-- Whether a per-partition limit has cut this partition. -/
  wasTruncated : Bool
deriving DecidableEq

/-- The answer of one replica. -/
structure DataResponse where
  partitions : List PartitionResult
  tombstonesRead : Nat
  isShortRead : Bool
deriving DecidableEq

namespace PartitionResult

/-- One cell of a row: kept if it is live, and otherwise counted as a tombstone. -/
def filterCell (nowSeconds : Int32) (s : List Cell × TombstoneTracker) (cell : Cell) :
    List Cell × TombstoneTracker :=
  if cell.isTombstone then (s.1, s.2.trackCellTombstone)
  else if !cell.isLiveAt nowSeconds then (s.1, s.2.trackCellTombstone)
  else (s.1 ++ [cell], s.2)

/-- The cells of a row that are live, with the others counted. -/
def liveCells (nowSeconds : Int32) (tracker : TombstoneTracker) (cells : List Cell) :
    List Cell × TombstoneTracker :=
  cells.foldl (filterCell nowSeconds) ([], tracker)

/-- The partition tombstone hides the row: no cell is newer. Its local deletion time is not looked
at. -/
def hides (tombstoneTimestamp : Option Int64) (row : Row) : Bool :=
  match tombstoneTimestamp with
  | some ts => !row.cells.any (fun c => c.timestamp > ts)
  | none => false

/-- The live part of a partition while its rows are filtered: the rows so far and their number. -/
structure Filtering where
  liveData : PartitionData
  liveCount : Nat
  tracker : TombstoneTracker
deriving DecidableEq

/-- Counted as a tombstone if it is marked as deleted or hidden, and otherwise added with its live
cells, if any. -/
def filterRow (tombstoneTimestamp : Option Int64) (nowSeconds : Int32) (s : Filtering)
    (row : Row) : Filtering :=
  if row.isTombstone then { s with tracker := s.tracker.trackRowTombstone }
  else if hides tombstoneTimestamp row then { s with tracker := s.tracker.trackRowTombstone }
  else
    let (liveCells, tracker) := liveCells nowSeconds s.tracker row.cells
    if liveCells.isEmpty then { s with tracker := tracker }
    else
      { liveData := s.liveData.applyRow
          { clusteringKey := row.clusteringKey
            cells := liveCells
            isTombstone := false
            localDeletionTime := none }
        liveCount := s.liveCount + 1
        tracker := tracker }

/-- The state before the first row: the partition tombstone is copied and counted. -/
def filteringStart (data : PartitionData) (tracker : TombstoneTracker) : Filtering :=
  match data.tombstoneTimestamp, data.tombstoneLocalDeletionTime with
  | some ts, some ldt =>
    { liveData := PartitionData.empty.setTombstone ts ldt
      liveCount := 0
      tracker := tracker.trackPartitionTombstone }
  | _, _ => { liveData := .empty, liveCount := 0, tracker := tracker }

/-- `PartitionResult::from_partition_data`: filters tombstones and expired cells. -/
def fromPartitionData (partitionKey : Bytes) (data : PartitionData) (nowSeconds : Int32)
    (tracker : TombstoneTracker) : PartitionResult × TombstoneTracker :=
  let s := data.rowList.foldl (filterRow data.tombstoneTimestamp nowSeconds)
    (filteringStart data tracker)
  ({ partitionKey := partitionKey
     data :=
       if s.liveCount > 0 || s.liveData.tombstoneTimestamp.isSome then some s.liveData else none
     liveRowCount := s.liveCount
     wasTruncated := false }, s.tracker)

def keptRow (tombstoneTimestamp : Option Int64) (nowSeconds : Int32) (row : Row) : Option Row :=
  if row.isTombstone || hides tombstoneTimestamp row then none
  else
    let cells := row.cells.filter (·.isLiveAt nowSeconds)
    if cells.isEmpty then none
    else some
      { clusteringKey := row.clusteringKey
        cells := cells
        isTombstone := false
        localDeletionTime := none }

end PartitionResult

/-- The cells of row `ck` that a replica answers a read with. -/
def answeredCells (p : PartitionData) (nowSeconds : Int32) (ck : Bytes) : List Cell :=
  (p.rows[ck]?.bind (PartitionResult.keptRow p.tombstoneTimestamp nowSeconds)).elim [] Row.cells

namespace DataResponse

def empty : DataResponse where
  partitions := []
  tombstonesRead := 0
  isShortRead := false

/-- `DataResponse::from_partition`: the response of a replica that read one partition. -/
def fromPartition (partitionKey : Bytes) (data : PartitionData) (nowSeconds : Int32) :
    DataResponse :=
  let (partition, tracker) :=
    PartitionResult.fromPartitionData partitionKey data nowSeconds (.new {})
  { partitions := [partition], tombstonesRead := tracker.count, isShortRead := false }

/-- What the digest of a response hashes of a partition: less than that of a stored partition. -/
def hashedResult (p : PartitionResult) : Bytes := fedBytes p.partitionKey ++
    match p.data with
    | some data =>
      fedOption fedInt64 data.tombstoneTimestamp ++ data.rowList.flatMap fun row =>
        fedBytes row.clusteringKey ++ row.cells.flatMap fun cell =>
          fedString cell.column ++ fedOption fedBytes cell.value ++ fedInt64 cell.timestamp
    | none => []

def digest (hasher : Hasher) (r : DataResponse) : Digest :=
  hasher (r.partitions.flatMap hashedResult)

/-- The cells that a response shows in row `ck` of any of its partitions. -/
def cells (r : DataResponse) (ck : Bytes) : List Cell :=
  r.partitions.flatMap fun p => (p.data.bind (·.rows[ck]?)).elim [] Row.cells

end DataResponse

end CassandraVerified.Read
