import CassandraVerified.Coordinator.Mutation
import CassandraVerified.Storage.Format.Data

/-!
# Read repair

A coordinator that finds a stale replica sends it the merged partition (`serialize_repair_payload`
in `read/repair.rs`). The replica decodes a mutation from it (`decode_staged_repair_payload` in
`verb_handlers/read_repair_handler.rs`) and applies that. Of errors the field and the numbers are
kept.
-/

namespace CassandraVerified.Coordinator

open Storage
open Wire (beBytes Reader)

/-- A repair to send; the target is left out. -/
structure ReadRepairMutation where
  keyspace : String
  table : String
  partitionKey : Bytes
  data : PartitionData
deriving DecidableEq

/-- One cell: name, value (of length 0 if there is none) and timestamp. -/
def serializeRepairCell (cell : Cell) : Bytes :=
  writeBytes (nameBytes cell.column) ++ writeBytes (cell.value.getD []) ++ writeI64 cell.timestamp

def serializeRepairRow (row : Row) : Bytes :=
  writeBytes row.clusteringKey ++ beBytes 4 row.cells.length ++
    row.cells.flatMap serializeRepairCell

def serializeRepairPayload (repair : ReadRepairMutation) : Bytes :=
  writeBytes (nameBytes repair.keyspace) ++ writeBytes (nameBytes repair.table) ++
    writeBytes repair.partitionKey ++ beBytes 4 repair.data.rowList.length ++
    repair.data.rowList.flatMap serializeRepairRow

/-- Why a payload is not read. -/
inductive RepairPayloadError where
  | truncated (field : String)
  | lengthExceeds (field : String) (length remaining : Nat)
  | notUtf8 (field : String)
  | trailingBytes (count : Nat)
deriving Repr, DecidableEq

abbrev RepairReader := Reader RepairPayloadError

def readRepairU32 (field : String) : RepairReader Nat := Reader.be (.truncated field) 4

def readRepairI64 (field : String) : RepairReader Int64 := do
  let n ← Reader.be (.truncated field) 8
  return (UInt64.ofNat n).toInt64

def readLenPrefixedBytes (field : String) : RepairReader Bytes := do
  let length ← readRepairU32 field
  let input ← get
  Reader.take (.lengthExceeds field length input.length) length

def readUtf8Field (field : String) : RepairReader String := do
  let bytes ← readLenPrefixedBytes field
  match String.fromUTF8? ⟨bytes.toArray⟩ with
  | some name => return name
  | none => throw (.notUtf8 field)

/-- A cell of the decoded mutation: a tombstone if it comes without a value. -/
def decodedCell (column : String) (value : Bytes) (timestamp : Int64) : CellMutation where
  column := column
  value := if value.isEmpty then none else some value
  timestamp := timestamp
  ttl := 0
  isTombstone := value.isEmpty

def readRepairCell : RepairReader CellMutation := do
  let column ← readUtf8Field "column"
  let value ← readLenPrefixedBytes "value"
  let timestamp ← readRepairI64 "timestamp"
  return decodedCell column value timestamp

def readRepairRow : RepairReader MutationRow := do
  let clusteringKey ← readLenPrefixedBytes "clustering key"
  let cellCount ← readRepairU32 "cell count"
  let cells ← Reader.times readRepairCell cellCount
  return { clusteringKey := clusteringKey, cells := cells, isTombstone := false }

/-- The newest timestamp of the cells of a mutation, and `0` at least. -/
def mutationTimestamp (rows : List MutationRow) : Int64 :=
  (rows.flatMap MutationRow.cells).foldl (fun ts cell => max ts cell.timestamp) 0

def readRepairRequest : RepairReader CoordinatedMutation := do
  let keyspace ← readUtf8Field "keyspace"
  let table ← readUtf8Field "table"
  let partitionKey ← readLenPrefixedBytes "partition key"
  let rowCount ← readRepairU32 "row count"
  let rows ← Reader.times readRepairRow rowCount
  return .simple keyspace table partitionKey rows (mutationTimestamp rows)

def decodeStagedRepairPayload (payload : Bytes) :
    Except RepairPayloadError CoordinatedMutation := do
  let (mutation, cursor) ← readRepairRequest.run payload
  if cursor.isEmpty then return mutation else throw (.trailingBytes cursor.length)

def repairReplica (repair : ReadRepairMutation) (replica : PartitionData) :
    Except RepairPayloadError PartitionData := do
  let mutation ← decodeStagedRepairPayload (serializeRepairPayload repair)
  return replica.applyAll (toStorageMutation mutation).writes

/-- Everything in `s` is in `m` too, or is older than what is there. -/
structure Stale (s m : PartitionData) : Prop where
  rows : ∀ (ck : Bytes) (r : Row), s.rows[ck]? = some r → ∃ r', m.rows[ck]? = some r' ∧
    (r.isTombstone = true → r'.isTombstone = true) ∧
      ∀ c ∈ r.cells, ∃ c' ∈ r'.cells, c'.column = c.column ∧ (c = c' ∨ c.timestamp < c'.timestamp)
  tombstone : ∀ t, s.tombstone = some t → ∃ t', m.tombstone = some t' ∧ (t = t' ∨ t.1 < t'.1)

/-- The same rows are live at `nowSeconds`, with the same live cells. -/
def SameShown (p q : PartitionData) (nowSeconds : Int32) : Prop :=
  ∀ ck, (p.liveRow nowSeconds ck).isSome = (q.liveRow nowSeconds ck).isSome ∧
    ∀ c, c ∈ p.liveCells nowSeconds ck ↔ c ∈ q.liveCells nowSeconds ck

/-- The repair makes the live rows of the replica those of the merged partition, at every time. -/
def Repairs (repair : ReadRepairMutation) (replica : PartitionData) : Prop :=
  ∃ repaired, repairReplica repair replica = .ok repaired ∧
    ∀ nowSeconds, SameShown repaired repair.data nowSeconds

/-- All lengths of the payload fit their fields. -/
structure PayloadFits (repair : ReadRepairMutation) : Prop where
  keyspace : (nameBytes repair.keyspace).length < 2 ^ 32
  table : (nameBytes repair.table).length < 2 ^ 32
  partitionKey : repair.partitionKey.length < 2 ^ 32
  rowCount : repair.data.rowList.length < 2 ^ 32
  rows : ∀ r ∈ repair.data.rowList, r.clusteringKey.length < 2 ^ 32 ∧ r.cells.length < 2 ^ 32
  cells : ∀ r ∈ repair.data.rowList, ∀ c ∈ r.cells,
    (nameBytes c.column).length < 2 ^ 32 ∧ (c.value.getD []).length < 2 ^ 32

def HasNewerCell (p : PartitionData) (ck : Bytes) (ts : Int64) : Prop :=
  ∃ r, p.rows[ck]? = some r ∧ ∃ c ∈ r.cells, ts < c.timestamp

/-- A partition tombstone of `p` with local deletion time `ldt` covers row `ck` of `m`. -/
def Covers (p m : PartitionData) (ck : Bytes) (ldt : Int32) : Prop :=
  ∃ ts, p.tombstone = some (ts, ldt) ∧ ¬ HasNewerCell m ck ts

/-- The cell is a value that never expires. -/
structure PlainValue (c : Cell) : Prop where
  ttl : c.ttl = 0
  localDeletionTime : c.localDeletionTime = none
  isTombstone : c.isTombstone = false

/-- What the payload leaves out is at the replica already, or cannot be seen. -/
structure NothingLeftOut (m s : PartitionData) : Prop where
  /-- The mark of a deleted row is at the replica, or a partition tombstone there hides the row at
  every time there is. -/
  rows : ∀ (ck : Bytes) (r : Row), m.rows[ck]? = some r → r.isTombstone = true →
    (∃ r', s.rows[ck]? = some r' ∧ r'.isTombstone = true) ∨ Covers s m ck Int32.minValue
  /-- Where the partition tombstone hides a row from some time on, one at the replica does. -/
  partition : ∀ (ck : Bytes) (r : Row), m.rows[ck]? = some r → r.isTombstone = false →
    ∀ ldt, Covers m m ck ldt → Covers s m ck ldt
  /-- In a row that is shown, a cell without a value is not live, and any other one is at the
  replica or is a value that never expires. -/
  cells : ∀ (ck : Bytes) (r : Row) (nowSeconds : Int32), m.liveRow nowSeconds ck = some r →
    ∀ c ∈ r.cells,
      if c.value.getD [] = [] then c.isLiveAt nowSeconds = false
      else (∃ r', s.rows[ck]? = some r' ∧ c ∈ r'.cells) ∨ PlainValue c

end CassandraVerified.Coordinator
