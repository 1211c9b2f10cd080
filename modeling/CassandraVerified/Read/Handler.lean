import CassandraVerified.Read.Response

/-!
# Read handlers of a replica

`verb_handlers/read_handler.rs`: a data request bounds the stored rows by a clustering key and a
limit before anything is filtered. A payload carries the partition itself, not its encoding; an
empty encoding, which stands for no data, is `none`.
-/

namespace CassandraVerified.Read

open Storage

/-- The request for a partition. -/
structure ReadDataRequest where
  keyspace : String
  table : String
  partitionKey : Bytes
  /-- Continue after this clustering key (exclusive). -/
  startAfter : Option Bytes
  rowLimit : Option Nat
deriving Repr, DecidableEq

abbrev WirePartitionResult := PartitionResult

/-- The answer of a replica. -/
structure ReadDataResponsePayload where
  partitions : List WirePartitionResult
  digest : Digest
  tombstonesRead : Nat
  isShortRead : Bool
deriving DecidableEq

/-- The storage of a replica, as far as reads see it: `read_partition`. -/
abbrev Replica := String → String → Bytes → Option PartitionData

def isAfter (startAfter : Option Bytes) (row : Row) : Bool :=
  match startAfter with
  | some start => compare start row.clusteringKey = .lt
  | none => true

/-- The stored rows behind a bound, live or not. -/
def storedRows (data : PartitionData) (startAfter : Option Bytes) : List Row :=
  data.rowList.filter (isAfter startAfter)

def boundedRows (data : PartitionData) (startAfter : Option Bytes) (rowLimit : Option Nat) :
    List Row :=
  rowLimit.elim (storedRows data startAfter) (storedRows data startAfter).take

def copyTombstone (data : PartitionData) : PartitionData :=
  match data.tombstoneTimestamp, data.tombstoneLocalDeletionTime with
  | some ts, some ldt => PartitionData.empty.setTombstone ts ldt
  | _, _ => .empty

/-- The partition tombstone and the rows behind `startAfter`, no more than `rowLimit` of them, and
whether rows were cut off. Rows count whether or not they are live. -/
def applyBoundsToPartition (data : PartitionData) (startAfter : Option Bytes)
    (rowLimit : Option Nat) : PartitionData × Bool :=
  let bounded := copyTombstone data
  let rows := storedRows data startAfter
  match rowLimit with
  | some limit =>
    if rows.length > limit then ((rows.take limit).foldl .applyRow bounded, true)
    else (rows.foldl .applyRow bounded, false)
  | none => (rows.foldl .applyRow bounded, false)

def readDataResponse (hasher : Hasher) (storage : Replica) (request : ReadDataRequest)
    (nowSeconds : Int32) : ReadDataResponsePayload :=
  match storage request.keyspace request.table request.partitionKey with
  | none => { partitions := [], digest := .empty, tombstonesRead := 0, isShortRead := false }
  | some data =>
    let (boundedData, isShortRead) :=
      applyBoundsToPartition data request.startAfter request.rowLimit
    let response := DataResponse.fromPartition request.partitionKey boundedData nowSeconds
    { partitions := response.partitions
      digest := .fromPartition hasher boundedData
      tombstonesRead := response.tombstonesRead
      isShortRead := isShortRead }

end CassandraVerified.Read
