import CassandraVerified.Storage.History

/-!
# Merging and purging partitions

`merge_partitions` of `compaction/mod.rs`: the partitions of several SSTables are merged into one
sorted run (`mergeSources`), and then tombstones and expired cells whose grace period is over are
dropped (`purgePartition`).
-/

namespace CassandraVerified.Storage

open Std (ExtTreeMap)

/-- The partitions of one SSTable, as `iter_partitions` lists them. -/
abbrev Source := List (Bytes × PartitionData)

namespace PartitionData

/-- The tombstone is merged first, then the rows in clustering order. -/
def mergePartition (entry partition : PartitionData) : PartitionData :=
  let entry :=
    match partition.tombstoneTimestamp, partition.tombstoneLocalDeletionTime with
    | some ts, some ldt => entry.setTombstone ts ldt
    | _, _ => entry
  partition.rowList.foldl applyRow entry

end PartitionData

/-- Merges one source, partition by partition, into the collected partitions. -/
def mergeSource (merged : ExtTreeMap Bytes PartitionData) (source : Source) :
    ExtTreeMap Bytes PartitionData :=
  source.foldl
    (fun m e => m.alter e.1 fun entry => some ((entry.getD .empty).mergePartition e.2)) merged

def mergeSources (sources : List Source) : ExtTreeMap Bytes PartitionData :=
  sources.foldl mergeSource ∅

/-- A tombstone within its grace period or without a deletion time, and anything else that is not an
expired cell past its grace period. -/
def cellRetained (gcCutoff nowSeconds : Int32) (cell : Cell) : Bool :=
  match cell.localDeletionTime with
  | none => true
  | some ldt =>
    if cell.isTombstone then ldt > gcCutoff
    else !(cell.ttl > 0 && nowSeconds ≥ ldt && ldt ≤ gcCutoff)

/-- What is left of a row: nothing of a deleted row past its grace period, and otherwise the
retained cells, unless there are none and the row is not a tombstone. -/
def purgeRow (gcCutoff nowSeconds : Int32) (row : Row) : Option Row :=
  if row.isTombstone && row.localDeletionTime.any (· ≤ gcCutoff) then none
  else
    let cells := row.cells.filter (cellRetained gcCutoff nowSeconds)
    if !cells.isEmpty || row.isTombstone then some { row with cells := cells } else none

theorem purgeRow_clusteringKey {gcCutoff nowSeconds : Int32} {row row' : Row}
    (h : purgeRow gcCutoff nowSeconds row = some row') :
    row'.clusteringKey = row.clusteringKey := by
  unfold purgeRow at h
  split at h
  · exact absurd h (by simp)
  · simp only [Option.ite_none_right_eq_some, Option.some.injEq] at h
    rw [← h.2]

namespace PartitionData

/-- The partition without the rows and cells that are purged. -/
def purgeRows (gcCutoff nowSeconds : Int32) (p : PartitionData) : PartitionData :=
  { p with
    rows := p.rows.filterMap fun _ r => purgeRow gcCutoff nowSeconds r
    keyed := fun ck r h => by
      rw [ExtTreeMap.getElem?_filterMap', Option.bind_eq_some_iff] at h
      obtain ⟨old, hold, hr⟩ := h
      exact (purgeRow_clusteringKey hr).trans (p.keyed ck old hold) }

/-- The partition without its tombstone, if the grace period of that is over. -/
def purgeTombstone (gcCutoff : Int32) (p : PartitionData) : PartitionData :=
  match p.tombstoneLocalDeletionTime with
  | some ldt =>
    if ldt ≤ gcCutoff then
      { p with tombstoneTimestamp := none, tombstoneLocalDeletionTime := none, paired := empty.paired }
    else p
  | none => p

/-- What is left of a partition; one without rows and tombstone is dropped. -/
def purge (gcCutoff nowSeconds : Int32) (p : PartitionData) : Option PartitionData :=
  let p := (p.purgeTombstone gcCutoff).purgeRows gcCutoff nowSeconds
  if !p.rows.isEmpty || p.tombstoneTimestamp.isSome then some p else none

end PartitionData

/-- Merges the partitions of several SSTables and drops what is past `gcGraceSeconds`, in key
order. -/
def mergePartitions (sources : List Source) (gcGraceSeconds nowSeconds : Int32) : Source :=
  let gcCutoff := nowSeconds - gcGraceSeconds
  ((mergeSources sources).filterMap fun _ p => p.purge gcCutoff nowSeconds).toList

namespace PartitionData

/-- The live cells of a row that `live_rows` returns; none if it does not return it. -/
def liveCells (p : PartitionData) (nowSeconds : Int32) (ck : Bytes) : List Cell :=
  ((p.liveRow nowSeconds ck).elim [] Row.cells).filter (·.isLiveAt nowSeconds)

/-- The same, apart from a row without live cells: `none` if `live_rows` does not return it. -/
def shownRow (p : PartitionData) (nowSeconds : Int32) (ck : Bytes) : Option (List Cell) :=
  (p.liveRow nowSeconds ck).map fun r => r.cells.filter (·.isLiveAt nowSeconds)

end PartitionData

def liveCellsOf (p : Option PartitionData) (nowSeconds : Int32) (ck : Bytes) : List Cell :=
  p.elim [] (·.liveCells nowSeconds ck)

/-- Purging at `nowSeconds` changes no live row of any partition, then or later: the same rows are
live, with the same live cells. -/
def PurgeInvisible (sources : List Source) (gcGraceSeconds nowSeconds : Int32) : Prop :=
  ∀ t, nowSeconds ≤ t → ∀ pk ck,
    ((mergePartitions sources gcGraceSeconds nowSeconds).lookup pk).bind (·.shownRow t ck) =
      (mergeSources sources)[pk]?.bind (·.shownRow t ck)

/-- Purging neither hides nor uncovers the row. Without a partition tombstone the row keeps a cell.
If the tombstone is purged, the row keeps a cell just if it has one that is newer. If the tombstone
stays, a row with a newer cell keeps one, and a row that is not hidden yet keeps a cell. -/
def Row.Settled (gcCutoff nowSeconds : Int32) (tombstone : Option (Int64 × Int32)) (r : Row) :
    Prop :=
  match tombstone with
  | none => ∃ c ∈ r.cells, cellRetained gcCutoff nowSeconds c
  | some (ts, ldt) =>
    if ldt ≤ gcCutoff then
      (∃ c ∈ r.cells, ts < c.timestamp) ↔ ∃ c ∈ r.cells, cellRetained gcCutoff nowSeconds c
    else
      ((∃ c ∈ r.cells, ts < c.timestamp) →
        ∃ c ∈ r.cells, cellRetained gcCutoff nowSeconds c ∧ ts < c.timestamp) ∧
      (nowSeconds < ldt → ∃ c ∈ r.cells, cellRetained gcCutoff nowSeconds c)

/-- All rows that are not marked as deleted are settled. -/
def PartitionData.RowsSettled (gcCutoff nowSeconds : Int32) (p : PartitionData) : Prop :=
  ∀ (ck : Bytes) (r : Row), p.rows[ck]? = some r → r.isTombstone = false →
    r.Settled gcCutoff nowSeconds p.tombstone

/-- The partition tombstone stands between no purged marker and live data. If it is purged it hides
no row with a live cell; if it stays, it depends on no purged cell for leaving a row with a live
cell visible. -/
def PartitionData.TombstoneSettled (gcCutoff nowSeconds : Int32) (p : PartitionData) : Prop :=
  ∀ ts ldt, p.tombstone = some (ts, ldt) →
    ∀ (ck : Bytes) (r : Row), p.rows[ck]? = some r → r.isTombstone = false →
      (ldt ≤ gcCutoff → (∃ c ∈ r.cells, c.isLiveAt nowSeconds) → ∃ c ∈ r.cells, ts < c.timestamp) ∧
      (gcCutoff < ldt → (∃ c ∈ r.cells, c.isLiveAt (max nowSeconds ldt)) →
        (∃ c ∈ r.cells, ts < c.timestamp) →
        ∃ c ∈ r.cells, cellRetained gcCutoff nowSeconds c ∧ ts < c.timestamp)

end CassandraVerified.Storage
