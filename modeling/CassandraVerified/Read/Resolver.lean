import CassandraVerified.Read.Response
import CassandraVerified.Storage.Compaction

/-!
# Resolvers

`read/resolver.rs`: the data resolver merges full data responses and lists what to send to replicas
that lack some of the merged data.
-/

namespace CassandraVerified.Read

open Storage

/-- Merged data to write to a replica that does not have it. -/
structure RepairMutation where
  replicaIndex : Nat
  partitionKey : Bytes
  mergedData : PartitionData
deriving DecidableEq

/-- The merged answer, and what the replicas lack. -/
structure ResolvedData where
  data : DataResponse
  repairMutations : List RepairMutation
  tombstoneTracker : TombstoneTracker
deriving DecidableEq

/-- Merges the versions that there are: tombstones, and cells by timestamp. -/
def mergePartitionData (versions : List (Option PartitionData)) : PartitionData :=
  versions.reduceOption.foldl .mergePartition .empty

/-- The answers that have come in. -/
structure DataResolver where
  responses : List DataResponse
  tombstoneThresholds : TombstoneThresholds
deriving DecidableEq

namespace DataResolver

def new (tombstoneThresholds : TombstoneThresholds) : DataResolver := ⟨[], tombstoneThresholds⟩

def addResponse (r : DataResolver) (response : DataResponse) : DataResolver :=
  { r with responses := r.responses ++ [response] }

/-- The partition keys of the responses, in order of first occurrence. -/
def allKeys (responses : List DataResponse) : List Bytes :=
  (responses.flatMap DataResponse.partitions).foldl
    (fun keys p => if keys.contains p.partitionKey then keys else keys ++ [p.partitionKey]) []

def partitionVersions (responses : List DataResponse) (pk : Bytes) : List (Option PartitionData) :=
  responses.map fun resp => (resp.partitions.find? (·.partitionKey = pk)).bind (·.data)

/-- A repair for every replica whose version does not hash as the merged one. -/
def repairs (hasher : Hasher) (pk : Bytes) (versions : List (Option PartitionData))
    (merged : PartitionData) : List RepairMutation :=
  versions.zipIdx.filterMap fun (version, replicaIndex) =>
    let versionDigest := (version.map (Digest.fromPartition hasher)).getD .empty
    if versionDigest ≠ Digest.fromPartition hasher merged then
      some { replicaIndex := replicaIndex, partitionKey := pk, mergedData := merged }
    else none

/-- One partition key: merge, list the repairs, filter the merged partition. -/
def resolveKey (hasher : Hasher) (responses : List DataResponse) (nowSeconds : Int32)
    (s : List PartitionResult × List RepairMutation × TombstoneTracker) (pk : Bytes) :
    List PartitionResult × List RepairMutation × TombstoneTracker :=
  let versions := partitionVersions responses pk
  let merged := mergePartitionData versions
  let (result, tracker) := PartitionResult.fromPartitionData pk merged nowSeconds s.2.2
  let repaired := s.2.1 ++ repairs hasher pk versions merged
  if result.liveRowCount > 0 || result.data.isSome then (s.1 ++ [result], repaired, tracker)
  else (s.1, repaired, tracker)

/-- `DataResolver::resolve`. A single response is returned as it is. -/
def resolve (hasher : Hasher) (r : DataResolver) (nowSeconds : Int32) : ResolvedData :=
  match r.responses with
  | [] =>
    { data := .empty, repairMutations := [], tombstoneTracker := .new r.tombstoneThresholds }
  | [data] =>
    { data := data, repairMutations := [], tombstoneTracker := .new r.tombstoneThresholds }
  | responses =>
    let (partitions, repaired, tracker) := (allKeys responses).foldl
      (resolveKey hasher responses nowSeconds) ([], [], .new r.tombstoneThresholds)
    { data :=
        { partitions := partitions, tombstonesRead := tracker.count, isShortRead := false }
      repairMutations := repaired
      tombstoneTracker := tracker }

end DataResolver

/-- The replicas of a partition answer a read, and the answers are resolved. -/
def coordinatedRead (hasher : Hasher) (thresholds : TombstoneThresholds) (partitionKey : Bytes)
    (replicas : List PartitionData) (nowSeconds : Int32) : DataResponse :=
  (DataResolver.resolve hasher
    (replicas.foldl (fun r p => r.addResponse (.fromPartition partitionKey p nowSeconds))
      (.new thresholds)) nowSeconds).data

/-- A coordinated read shows exactly the live cells, in live rows, of the merged replicas. -/
def ReadsMerged (hasher : Hasher) (thresholds : TombstoneThresholds) (partitionKey : Bytes)
    (replicas : List PartitionData) (nowSeconds : Int32) : Prop :=
  ∀ ck c, c ∈ (coordinatedRead hasher thresholds partitionKey replicas nowSeconds).cells ck ↔
    c ∈ (mergePartitionData (replicas.map some)).liveCells nowSeconds ck

def rowCells (p : PartitionData) (ck : Bytes) : List Cell := p.rows[ck]?.elim [] Row.cells

/-- Cells of one column of a row that have one timestamp are the same cell, on all replicas. -/
def DistinctTimestamps (replicas : List PartitionData) : Prop :=
  ∀ p ∈ replicas, ∀ p' ∈ replicas, ∀ ck, ∀ c ∈ rowCells p ck, ∀ c' ∈ rowCells p' ck,
    c.column = c'.column → c.timestamp = c'.timestamp → c = c'

/-- `c` is the newest of the cells of its column that replicas have. -/
def IsNewest (cells : PartitionData → List Cell) (replicas : List PartitionData) (c : Cell) :
    Prop :=
  (∃ p ∈ replicas, c ∈ cells p) ∧
    ∀ p ∈ replicas, ∀ c' ∈ cells p, c'.column = c.column → c'.timestamp ≤ c.timestamp

/-- The newest partition tombstone, the first of several with its timestamp. -/
def newestTombstone (replicas : List PartitionData) : Option (Int64 × Int32) :=
  (replicas.filterMap PartitionData.tombstone).argmax Prod.fst

def Unmarked (replicas : List PartitionData) (ck : Bytes) : Prop :=
  ∀ p ∈ replicas, ∀ r : Row, p.rows[ck]? = some r → r.isTombstone = false

/-- The newest partition tombstone does not hide row `ck` of the merged replicas: its deletion time
is yet to come, or some replica has a newer cell. -/
def RowOpen (replicas : List PartitionData) (nowSeconds : Int32) (ck : Bytes) : Prop :=
  ∀ t, newestTombstone replicas = some t → t.2 ≤ nowSeconds →
    ∃ p ∈ replicas, ∃ c ∈ rowCells p ck, t.1 < c.timestamp

/-- The newest partition tombstone does not hide row `ck` of the merged answers: one of them has a
newer cell. A single answer is not merged. -/
def AnswerOpen (replicas : List PartitionData) (nowSeconds : Int32) (ck : Bytes) : Prop :=
  replicas.length = 1 ∨ ∀ t, newestTombstone replicas = some t →
    ∃ p ∈ replicas, ∃ c ∈ answeredCells p nowSeconds ck, t.1 < c.timestamp

/-- What the replicas filter out of their answers does not decide between their cells. -/
structure FilterHarmless (replicas : List PartitionData) (nowSeconds : Int32) : Prop where
  /-- Where a replica answers with a cell, no replica has deleted the row, and the newest version
  of the column is neither deleted nor expired. -/
  nothingDeleted : ∀ ck, AnswerOpen replicas nowSeconds ck →
    ∀ p ∈ replicas, ∀ c ∈ answeredCells p nowSeconds ck, Unmarked replicas ck ∧
      ∀ d, d.column = c.column → IsNewest (rowCells · ck) replicas d → d.isLiveAt nowSeconds
  /-- The newest version of a column, if it is live in a live row, is in some answer. -/
  nothingHidden : ∀ ck c, Unmarked replicas ck → RowOpen replicas nowSeconds ck →
    IsNewest (rowCells · ck) replicas c → c.isLiveAt nowSeconds →
      AnswerOpen replicas nowSeconds ck ∧ ∃ p ∈ replicas, c ∈ answeredCells p nowSeconds ck

end CassandraVerified.Read
