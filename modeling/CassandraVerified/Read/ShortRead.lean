import CassandraVerified.Read.Handler

/-!
# Short-read protection

A replica bounds its rows before it filters them, so that an answer may hold too few live rows. The
coordinator then asks again behind the last live row: `read/short_read.rs` and
`fetch_full_data_payload_with_short_read_retry` of `storage_proxy.rs`.
-/

namespace CassandraVerified.Read

open Storage

/-- How often a short read is retried. -/
structure ShortReadProtection where
  maxRetries : Nat := 3
  retries : Nat := 0
  enabled : Bool := true
deriving Repr, DecidableEq

/-- What to read next. -/
structure ShortReadRetry where
  startAfter : Bytes
  adjustedLimit : Nat
deriving Repr, DecidableEq

namespace ShortReadProtection

/-- Fewer rows than asked for, and tombstones that may hide more. -/
def needsRetry (s : ShortReadProtection) (rowsRequested rowsReceived tombstonesEncountered : Nat) :
    Bool :=
  if !s.enabled then false
  else if s.retries ≥ s.maxRetries then false
  else rowsReceived < rowsRequested && tombstonesEncountered > 0

def recordRetry (s : ShortReadProtection) : ShortReadProtection := { s with retries := s.retries + 1 }

def retryBounds (lastClusteringKey : Bytes) (remainingLimit : Nat) : ShortReadRetry :=
  ⟨lastClusteringKey, remainingLimit⟩

end ShortReadProtection

namespace ReadDataResponsePayload

def lastClusteringKey (payload : ReadDataResponsePayload) : Option Bytes := payload.partitions.foldl
    (fun last p =>
      match p.data.bind (·.rowList.getLast?) with
      | some row => some row.clusteringKey
      | none => last)
    none

/-- A partition result with the rows and the tombstone of a later one. -/
def mergeResult (existing next : WirePartitionResult) : WirePartitionResult :=
  let incoming := next.data.getD .empty
  let merged := incoming.rowList.foldl .applyRow (existing.data.getD .empty)
  let merged :=
    match incoming.tombstoneTimestamp, incoming.tombstoneLocalDeletionTime with
    | some ts, some ldt => merged.setTombstone ts ldt
    | _, _ => merged
  { existing with
    data := some merged
    liveRowCount := merged.rowList.length
    wasTruncated := existing.wasTruncated || next.wasTruncated }

/-- Merges a later result into the first one of its partition, or appends it. -/
def mergeInto : List WirePartitionResult → WirePartitionResult → List WirePartitionResult
  | [], next => [next]
  | existing :: rest, next =>
    if existing.partitionKey = next.partitionKey then mergeResult existing next :: rest
    else existing :: mergeInto rest next

/-- The digest of the rows that the payload holds now (`refresh_payload_digest`). -/
def refreshDigest (hasher : Hasher) (payload : ReadDataResponsePayload) : ReadDataResponsePayload :=
  { payload with
    digest :=
      match payload.partitions with
      | [] => .empty
      | [p] => p.data.elim .empty (.fromPartition hasher)
      | partitions => DataResponse.digest hasher
          { partitions := partitions
            tombstonesRead := payload.tombstonesRead
            isShortRead := payload.isShortRead } }

/-- `merge_short_read_payload`. -/
def mergeShortRead (hasher : Hasher) (base next : ReadDataResponsePayload) :
    ReadDataResponsePayload :=
  refreshDigest hasher
    { base with
      partitions := next.partitions.foldl mergeInto base.partitions
      tombstonesRead := base.tombstonesRead + next.tombstonesRead
      isShortRead := next.isShortRead }

def rows (payload : ReadDataResponsePayload) : List Row :=
  payload.partitions.flatMap fun p => p.data.elim [] PartitionData.rowList

end ReadDataResponsePayload

/-- A read of one partition. -/
structure CoordinatedRead where
  keyspace : String
  table : String
  partitionKey : Bytes
  startAfter : Option Bytes
  rowLimit : Option Nat
deriving Repr, DecidableEq

section

variable (hasher : Hasher) (storage : Replica) (nowSeconds : Int32) (read : CoordinatedRead)

def fetchFullDataPayloadWithBounds (startAfter : Option Bytes) (rowLimit : Option Nat) :
    ReadDataResponsePayload :=
  readDataResponse hasher storage
    { keyspace := read.keyspace
      table := read.table
      partitionKey := read.partitionKey
      startAfter := startAfter
      rowLimit := rowLimit } nowSeconds

def fetchFullDataPayload : ReadDataResponsePayload :=
  fetchFullDataPayloadWithBounds hasher storage nowSeconds read read.startAfter read.rowLimit

/-- Each turn but the last uses up one of the retries that are left, the first argument. -/
def retryLoop : Nat → ShortReadProtection → ReadDataResponsePayload → ReadDataResponsePayload
  | 0, _, payload => payload
  | left + 1, shortRead, payload =>
    if payload.isShortRead then
      let rowsReceived := (payload.partitions.map PartitionResult.liveRowCount).sum
      let rowsRequested := rowsReceived + 1
      if shortRead.needsRetry rowsRequested rowsReceived payload.tombstonesRead then
        let shortRead := shortRead.recordRetry
        match payload.lastClusteringKey with
        | none =>
          retryLoop left shortRead (fetchFullDataPayload hasher storage nowSeconds read)
        | some lastClusteringKey =>
          let retry := ShortReadProtection.retryBounds lastClusteringKey rowsRequested
          let nextPayload := fetchFullDataPayloadWithBounds hasher storage nowSeconds read
            (some retry.startAfter) (some retry.adjustedLimit)
          retryLoop left shortRead (payload.mergeShortRead hasher nextPayload)
      else payload
    else payload

def fetchFullDataPayloadWithShortReadRetry : ReadDataResponsePayload :=
  let shortRead : ShortReadProtection := {}
  retryLoop hasher storage nowSeconds read shortRead.maxRetries shortRead
    (fetchFullDataPayload hasher storage nowSeconds read)

end

/-- The live rows among stored ones, as a replica answers with them. -/
def liveRowsOf (data : PartitionData) (nowSeconds : Int32) (rows : List Row) : List Row :=
  rows.filterMap (PartitionResult.keptRow data.tombstoneTimestamp nowSeconds)

/-- The payload starts with the first `limit` rows that are live and lie behind the start of the
read, or with all of them if there are fewer. -/
def FetchesLimit (hasher : Hasher) (storage : Replica) (nowSeconds : Int32) (read : CoordinatedRead) :
    Prop :=
  ∀ data limit, storage read.keyspace read.table read.partitionKey = some data →
    read.rowLimit = some limit →
    (liveRowsOf data nowSeconds (storedRows data read.startAfter)).take limit <+:
      (fetchFullDataPayloadWithShortReadRetry hasher storage nowSeconds read).rows

/-- What is left of a list behind its `n`-th element that satisfies `p`. -/
def dropUntil {α : Type} (p : α → Bool) : Nat → List α → List α
  | 0, l => l
  | _ + 1, [] => []
  | n + 1, a :: l => if p a then dropUntil p n l else dropUntil p (n + 1) l

/-- How many live rows are known after a retry, which reads the `known + 1` stored rows behind the
last known one. -/
def knownAfterRetry (live : Row → Bool) (rows : List Row) (known : Nat) : Nat :=
  known + ((dropUntil live known rows).take (known + 1)).countP live

/-- The first answer met a tombstone: that of the partition, a deleted row, or a deleted or expired
cell. -/
def MeetsTombstone (data : PartitionData) (nowSeconds : Int32) (rows : List Row) : Prop :=
  data.tombstoneTimestamp.isSome ∨
    ∃ r ∈ rows, r.isTombstone = true ∨ ∃ c ∈ r.cells, c.isLiveAt nowSeconds = false

instance (data : PartitionData) (nowSeconds : Int32) (rows : List Row) :
    Decidable (MeetsTombstone data nowSeconds rows) := inferInstanceAs (Decidable (_ ∨ _))

/-- The first `limit` stored rows hold enough live ones, or three retries find enough. Retries are
made if a tombstone was met, behind the last live row. -/
def RetriesSuffice (data : PartitionData) (nowSeconds : Int32) (startAfter : Option Bytes)
    (limit : Nat) : Prop :=
  let rows := storedRows data startAfter
  let live := fun r => (PartitionResult.keptRow data.tombstoneTimestamp nowSeconds r).isSome
  let needed := min limit (rows.countP live)
  let known := (rows.take limit).countP live
  needed ≤ known ∨ 0 < known ∧ MeetsTombstone data nowSeconds (rows.take limit) ∧
      needed ≤ (knownAfterRetry live rows)^[3] known

end CassandraVerified.Read
