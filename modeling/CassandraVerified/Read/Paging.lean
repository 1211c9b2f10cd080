import CassandraVerified.Read.Handler

/-!
# Paging

`read/paging.rs`: a pager hands out a page at a time and remembers where it ended by a mark: the
partition key and the clustering key of the last row, where an empty clustering key says that the
partition is finished. The mark also travels to the client as a paging state, from which a later
request builds a pager anew.
-/

namespace CassandraVerified.Read

open Storage

/-- Where a query goes on, as the client keeps it. -/
structure PagingState where
  partitionKey : Bytes
  /-- The last clustering key returned; empty if the partition is finished. -/
  rowMark : Bytes
  remaining : UInt32
  remainingInPartition : UInt32
deriving Repr, DecidableEq

namespace PagingState

/-- The bytes of the `paging_state` field. A length is cut to 32 bits. -/
def serialize (state : PagingState) : Bytes :=
  Wire.beBytes 4 state.partitionKey.length ++ state.partitionKey ++
    Wire.beBytes 4 state.rowMark.length ++ state.rowMark ++
    Wire.beBytes 4 state.remaining.toNat ++ Wire.beBytes 4 state.remainingInPartition.toNat

/-- Reads a state back; bytes behind it are ignored. -/
def deserialize (data : Bytes) : Option PagingState := do
  guard (16 ≤ data.length)
  let (pkLen, data) ← Wire.readBe 4 data
  let (partitionKey, data) ← Wire.take pkLen data
  let (rmLen, data) ← Wire.readBe 4 data
  let (rowMark, data) ← Wire.take rmLen data
  let (remaining, data) ← Wire.readBe 4 data
  let (remainingInPartition, _) ← Wire.readBe 4 data
  return {
    partitionKey := partitionKey
    rowMark := rowMark
    remaining := .ofNat remaining
    remainingInPartition := .ofNat remainingInPartition }

end PagingState

/-! ## The pager -/

/-- A page of a result. -/
structure QueryPage where
  /-- The partitions, trimmed to the rows of the page. -/
  partitions : List PartitionResult
  pagingState : Option PagingState
  rowsReturned : Nat
deriving DecidableEq

/-- Where a client stands in a result. -/
structure QueryPager where
  partitions : List PartitionResult
  pageSize : Nat
  remaining : Nat
  startAfter : Option (Bytes × Bytes)
deriving DecidableEq

/-- No limit is the largest `usize`. -/
def effectiveLimit (limit : UInt32) : Nat :=
  if limit = 0 then 2 ^ 64 - 1 else limit.toNat

/-- The number of keys up to and with `lastRow`, or `0` if it is not among them. `idx` keys have
been passed. -/
def indexAfter (lastRow : Bytes) (idx : Nat) : List Bytes → Nat
  | [] => 0
  | ck :: cks => if ck = lastRow then idx + 1 else indexAfter lastRow (idx + 1) cks

/-- The row of a partition at which a pager goes on, if the partition is not behind it. -/
def resumeRowIndex (partition : PartitionResult) (startAfter : Option (Bytes × Bytes)) :
    Option Nat :=
  partition.data.bind fun data =>
    match startAfter with
    | none => some 0
    | some (lastPk, lastRow) =>
      match compare partition.partitionKey lastPk with
      | .lt => none
      | .gt => some 0
      | .eq =>
        if lastRow.isEmpty then some data.rows.size
        else some (indexAfter lastRow 0 data.rows.keys)

def rowsAfter (partitions : List PartitionResult) (startAfter : Option (Bytes × Bytes)) : Nat :=
  (partitions.filterMap fun partition => do
    let data ← partition.data
    let startIdx ← resumeRowIndex partition startAfter
    return data.rows.size - startIdx).sum

/-- The mark of the last row on a page. -/
structure Marker where
  partitionKey : Bytes
  rowMark : Bytes
  endedPartition : Bool
  remainingInPartition : UInt32
deriving Repr, DecidableEq

/-- The mark of a row with `rest` behind it in its partition. -/
def Marker.ofRow (partitionKey : Bytes) (row : Row) (rest : List Row) : Marker where
  partitionKey := partitionKey
  rowMark := if rest.isEmpty then [] else row.clusteringKey
  endedPartition := rest.isEmpty
  remainingInPartition := .ofNat rest.length

/-- The variables of the loop over the partitions. -/
structure PageRun where
  budget : Nat
  output : List PartitionResult
  rowsReturned : Nat
  lastMarker : Option Marker

/-- The variables of the loop over the rows of one partition. -/
structure PartitionRun extends PageRun where
  pageData : PartitionData
  rowsInPartition : Nat

/-- The loop over the rows of a partition, from the row at which the pager goes on. -/
def addRows (partitionKey : Bytes) : List Row → PartitionRun → PartitionRun
  | [], s => s
  | row :: rest, s =>
    if s.budget = 0 then s
    else addRows partitionKey rest
      { budget := s.budget - 1
        output := s.output
        rowsReturned := s.rowsReturned + 1
        lastMarker := some (.ofRow partitionKey row rest)
        pageData := s.pageData.applyRow row
        rowsInPartition := s.rowsInPartition + 1 }

/-- The rows of one more partition, as far as the page has room. -/
def addPartition (startAfter : Option (Bytes × Bytes)) (s : PageRun) (partition : PartitionResult) :
    PageRun :=
  if s.budget = 0 then s
  else match partition.data, resumeRowIndex partition startAfter with
    | some data, some startIdx =>
      if startIdx ≥ data.rows.size then s
      else
        let t := addRows partition.partitionKey (data.rowList.drop startIdx)
          { s with pageData := copyTombstone data, rowsInPartition := 0 }
        if t.rowsInPartition > 0 then
          { t.toPageRun with
            output := t.output ++
              [{ partitionKey := partition.partitionKey
                 data := some t.pageData
                 liveRowCount := t.rowsInPartition
                 wasTruncated := t.rowsInPartition < data.rows.size }] }
        else t.toPageRun
    | _, _ => s

namespace QueryPager

/-- A pager for the result of a command. A `countLimit` of `0` means all rows. -/
def new (partitions : List PartitionResult) (pageSize countLimit : UInt32) : QueryPager :=
  let available := rowsAfter partitions none
  { partitions := partitions
    pageSize := effectiveLimit pageSize
    remaining := if countLimit = 0 then available else min available countLimit.toNat
    startAfter := none }

def fromPagingState (partitions : List PartitionResult) (pageSize : UInt32) (state : PagingState) :
    QueryPager where
  partitions := partitions
  pageSize := effectiveLimit pageSize
  remaining := state.remaining.toNat
  startAfter := some (state.partitionKey, state.rowMark)

/-- The next page, and the pager behind it. The page is empty if no rows remain. -/
def nextPage (pager : QueryPager) : QueryPage × QueryPager :=
  if pager.remaining = 0 then
    ({ partitions := [], pagingState := none, rowsReturned := 0 }, pager)
  else
    let budget := min pager.pageSize pager.remaining
    let budget := if budget = 0 then pager.remaining else budget
    let run := pager.partitions.foldl (addPartition pager.startAfter)
      { budget := budget, output := [], rowsReturned := 0, lastMarker := none }
    let remaining := pager.remaining - run.rowsReturned
    match run.lastMarker with
    | some marker =>
      if remaining = 0 then
        ({ partitions := run.output, pagingState := none, rowsReturned := run.rowsReturned },
          { pager with remaining := remaining })
      else
        ({ partitions := run.output
           pagingState := some
             { partitionKey := marker.partitionKey
               rowMark := marker.rowMark
               remaining := .ofNat (min remaining (2 ^ 32 - 1))
               remainingInPartition :=
                 if marker.endedPartition then 0 else marker.remainingInPartition }
           rowsReturned := run.rowsReturned },
          { pager with
            remaining := remaining
            startAfter := some (marker.partitionKey, marker.rowMark) })
    | none =>
      ({ partitions := run.output, pagingState := none, rowsReturned := run.rowsReturned },
        { pager with remaining := remaining })

end QueryPager

/-! ## Whole queries -/

/-- The pager after a page that came with `state`: the same one, or one built from the bytes of the
state, if they are not refused. -/
def followingPager (pageSize : UInt32) (rebuilt : Bool) (next : QueryPager) (state : PagingState) :
    Option QueryPager :=
  if rebuilt then
    (PagingState.deserialize state.serialize).map (.fromPagingState next.partitions pageSize)
  else some next

/-- The pages from the `n`th on, up to the first without a paging state. `rebuilt` says after which
pages the pager is built anew. -/
def pages (pageSize : UInt32) (rebuilt : Nat → Bool) :
    Nat → Nat → QueryPager → Option (List QueryPage)
  | 0, _, _ => none
  | fuel + 1, n, pager =>
    match pager.nextPage.1.pagingState with
    | none => some [pager.nextPage.1]
    | some state =>
      match followingPager pageSize (rebuilt n) pager.nextPage.2 state with
      | none => some [pager.nextPage.1]
      | some following =>
        (pages pageSize rebuilt fuel (n + 1) following).map (pager.nextPage.1 :: ·)

/-- The rows of partitions, in order, each with the key of its partition. -/
def rowsOf (partitions : List PartitionResult) : List (Bytes × Row) := partitions.flatMap fun p =>
    p.data.elim [] fun data => data.rowList.map fun row => (p.partitionKey, row)

def resultCount (partitions : List PartitionResult) (limit : UInt32) : Nat :=
  if limit = 0 then (rowsOf partitions).length else min (rowsOf partitions).length limit.toNat

/-- The pages from the `n`th on come to an end and hold the given rows. -/
def Yields (pageSize : UInt32) (rebuilt : Nat → Bool) (n : Nat) (pager : QueryPager)
    (rows : List (Bytes × Row)) : Prop :=
  ∃ fuel result, pages pageSize rebuilt fuel n pager = some result ∧
    (result.flatMap fun page => rowsOf page.partitions) = rows

/-- Wherever the pager is rebuilt, the pages hold the first `limit` rows, in order. -/
def PagesExact (partitions : List PartitionResult) (pageSize limit : UInt32) : Prop :=
  ∀ rebuilt : Nat → Bool, Yields pageSize rebuilt 0 (.new partitions pageSize limit)
    ((rowsOf partitions).take (resultCount partitions limit))

/-- Partitions are listed by key, as the pager compares them. -/
def PartitionsSorted (partitions : List PartitionResult) : Prop :=
  partitions.Pairwise fun p q => compare p.partitionKey q.partitionKey = .lt

/-- A row, with the rows behind it in its partition. -/
structure PlacedRow where
  partitionKey : Bytes
  row : Row
  rest : List Row
deriving Repr, DecidableEq

def placedRows (partitionKey : Bytes) : List Row → List PlacedRow
  | [] => []
  | row :: rest => ⟨partitionKey, row, rest⟩ :: placedRows partitionKey rest

def resultRows (partitions : List PartitionResult) : List PlacedRow :=
  partitions.flatMap fun p => p.data.elim [] fun data => placedRows p.partitionKey data.rowList

/-- A page may end with this row, `left` rows before the end of the query: the mark of the row is
not taken for that of a finished partition, and all that the paging state holds fits 32 bits. -/
structure PlacedRow.Resumable (r : PlacedRow) (left : Nat) : Prop where
  marked : r.rest ≠ [] → r.row.clusteringKey ≠ []
  keyFits : r.partitionKey.length < 2 ^ 32
  markFits : r.rest ≠ [] → r.row.clusteringKey.length < 2 ^ 32
  leftFits : left < 2 ^ 32

/-- Every full page but the last ends with a row from which the query can go on. -/
def PageEndsResumable (partitions : List PartitionResult) (pageSize limit : UInt32) : Prop :=
  ∀ d, pageSize.toNat ∣ d + 1 → d + 1 < resultCount partitions limit →
    ∀ r, (resultRows partitions)[d]? = some r → r.Resumable (resultCount partitions limit - (d + 1))

end CassandraVerified.Read
