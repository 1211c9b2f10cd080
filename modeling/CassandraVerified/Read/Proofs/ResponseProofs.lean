import CassandraVerified.Read.Response
import CassandraVerified.Storage.Proofs.LedgerProofs
import CassandraVerified.Storage.Proofs.PurgeProofs

/-!
# Proofs: what a replica answers

The loops of `from_partition_data` leave exactly the rows that `keptRow` leaves, in an otherwise
unchanged partition.
-/

namespace CassandraVerified.Read

open List Storage
open Std (ExtTreeMap)
open Option PartitionData

variable {now : Int32} {c : Cell} {ts : Option Int64} {row : Row} {p : PartitionData}

namespace TombstoneTracker

@[simp] theorem count_checkThresholds (t : TombstoneTracker) : t.checkThresholds.count = t.count := by
  unfold checkThresholds
  split <;> rfl

@[simp] theorem count_track (t : TombstoneTracker) : t.track.count = t.count + 1 :=
  count_checkThresholds _

end TombstoneTracker

namespace PartitionResult

theorem filterCell_of_live (h : c.isLiveAt now = true) (s : List Cell × TombstoneTracker) :
    filterCell now s c = (s.1 ++ [c], s.2) := by
  have htomb : c.isTombstone = false := ((c.isLiveAt_iff now).mp h).1
  simp [filterCell, htomb, h]

theorem filterCell_of_not_live (h : ¬ c.isLiveAt now = true) (s : List Cell × TombstoneTracker) :
    filterCell now s c = (s.1, s.2.track) := by
  unfold filterCell
  split
  · rfl
  · rw [if_pos (by simp [h])]
    rfl

theorem foldl_filterCell (now : Int32) (cells : List Cell) (s : List Cell × TombstoneTracker) :
    (cells.foldl (filterCell now) s).1 = s.1 ++ cells.filter (·.isLiveAt now) ∧
      (cells.foldl (filterCell now) s).2.count =
        s.2.count + cells.countP fun c => !c.isLiveAt now := by
  induction cells generalizing s with
  | nil => simp
  | cons c cells ih =>
    obtain ⟨hcells, hcount⟩ := ih (filterCell now s c)
    rw [foldl_cons, hcells, hcount]
    by_cases hlive : c.isLiveAt now = true
    · simp [filterCell_of_live hlive, hlive]
    · simp [filterCell_of_not_live hlive, hlive, Nat.add_assoc, Nat.add_comm 1]

theorem liveCells_spec (now : Int32) (tracker : TombstoneTracker) (cells : List Cell) :
    (liveCells now tracker cells).1 = cells.filter (·.isLiveAt now) ∧
      (liveCells now tracker cells).2.count =
        tracker.count + cells.countP fun c => !c.isLiveAt now :=
  foldl_filterCell now cells ([], tracker)

theorem keptRow_clusteringKey {row' : Row} (h : keptRow ts now row = some row') :
    row'.clusteringKey = row.clusteringKey := by
  unfold keptRow at h
  split at h
  · exact absurd h (by simp)
  · simp only [ite_none_left_eq_some, Option.some.injEq] at h
    rw [← h.2]

theorem keptRow_eq_some {row' : Row} : keptRow ts now row = some row' ↔
      row.isTombstone = false ∧ hides ts row = false ∧ row.cells.filter (·.isLiveAt now) ≠ [] ∧
        row' = ⟨row.clusteringKey, row.cells.filter (·.isLiveAt now), false, none⟩ := by
  unfold keptRow
  cases row.isTombstone <;> cases hides ts row <;>
    simp [eq_comm (a := row')]

theorem hides_eq_false :
    hides ts row = false ↔ ∀ t, ts = some t → ∃ c ∈ row.cells, t < c.timestamp := by
  cases ts <;> simp [hides]

theorem filterRow_eq (ts : Option Int64) (now : Int32) (s : Filtering) (row : Row) :
    (filterRow ts now s row).liveData = (keptRow ts now row).toList.foldl .applyRow s.liveData ∧
      (filterRow ts now s row).liveCount = s.liveCount + (keptRow ts now row).toList.length := by
  unfold filterRow keptRow
  by_cases htomb : row.isTombstone = true
  · simp [htomb]
  · by_cases hhide : hides ts row = true
    · simp [htomb, hhide]
    · have hcells := (liveCells_spec now s.tracker row.cells).1
      by_cases hempty : (row.cells.filter (·.isLiveAt now)).isEmpty = true
      · simp [htomb, hhide, hcells, hempty]
      · simp [htomb, hhide, hcells, hempty]

theorem foldl_filterRow (ts : Option Int64) (now : Int32) (rows : List Row) (s : Filtering) :
    (rows.foldl (filterRow ts now) s).liveData =
        (rows.filterMap (keptRow ts now)).foldl .applyRow s.liveData ∧
      (rows.foldl (filterRow ts now) s).liveCount =
        s.liveCount + (rows.filterMap (keptRow ts now)).length := by
  induction rows generalizing s with
  | nil => simp
  | cons row rows ih =>
    obtain ⟨hdata, hcount⟩ := filterRow_eq ts now s row
    obtain ⟨hdata', hcount'⟩ := ih (filterRow ts now s row)
    rw [foldl_cons, hdata', hcount', hdata, hcount]
    cases hkept : keptRow ts now row with
    | none => simp [hkept]
    | some row' => simp [hkept, Nat.add_assoc, Nat.add_comm 1]

end PartitionResult

open PartitionResult

/-- The rows that a replica answers with, and the partition tombstone. -/
def livePart (p : PartitionData) (now : Int32) : PartitionData :=
  { p with
    rows := p.rows.filterMap fun _ r => keptRow p.tombstoneTimestamp now r
    keyed := fun ck r h => by
      rw [ExtTreeMap.getElem?_filterMap', bind_eq_some_iff] at h
      obtain ⟨old, hold, hr⟩ := h
      exact (keptRow_clusteringKey hr).trans (p.keyed ck old hold) }

@[simp] theorem tombstone_livePart (p : PartitionData) (now : Int32) :
    (livePart p now).tombstone = p.tombstone := rfl

theorem getElem?_livePart (p : PartitionData) (now : Int32) (ck : Bytes) :
    (livePart p now).rows[ck]? = p.rows[ck]?.bind (keptRow p.tombstoneTimestamp now) :=
  ExtTreeMap.getElem?_filterMap'

theorem rowList_livePart (p : PartitionData) (now : Int32) :
    (livePart p now).rowList = p.rowList.filterMap (keptRow p.tombstoneTimestamp now) := by
  unfold livePart PartitionData.rowList TreeMap.values
  rw [ExtTreeMap.toList_filterMap, map_filterMap, filterMap_map]
  refine filterMap_congr fun e _ => ?_
  simp [Function.comp_def]

theorem filteringStart_eq (p : PartitionData) (tracker : TombstoneTracker) :
    (∀ ck : Bytes, (filteringStart p tracker).liveData.rows[ck]? = none) ∧
      (filteringStart p tracker).liveData.tombstone = p.tombstone ∧
      (filteringStart p tracker).liveCount = 0 := by
  unfold filteringStart PartitionData.tombstone
  cases hts : p.tombstoneTimestamp with
  | none => exact ⟨fun ck => by simp, rfl, rfl⟩
  | some ts =>
    cases hldt : p.tombstoneLocalDeletionTime with
    | none => exact ⟨fun ck => by simp, rfl, rfl⟩
    | some ldt => exact ⟨fun ck => by simp, rfl, rfl⟩

theorem foldl_filterRow_rowList (p : PartitionData) (now : Int32) (tracker : TombstoneTracker) :
    (p.rowList.foldl (filterRow p.tombstoneTimestamp now) (filteringStart p tracker)).liveData =
        livePart p now ∧
      (p.rowList.foldl (filterRow p.tombstoneTimestamp now) (filteringStart p tracker)).liveCount =
        (livePart p now).rowList.length := by
  obtain ⟨hrows, htomb, hcount⟩ := filteringStart_eq p tracker
  obtain ⟨hdata, hcount'⟩ := foldl_filterRow p.tombstoneTimestamp now p.rowList
    (filteringStart p tracker)
  rw [← rowList_livePart] at hdata hcount'
  refine ⟨hdata.trans (foldl_applyRow_rowList hrows htomb), ?_⟩
  rw [hcount', hcount, Nat.zero_add]

theorem fromPartitionData_fst (pk : Bytes) (p : PartitionData) (now : Int32)
    (tracker : TombstoneTracker) :
    (fromPartitionData pk p now tracker).1 =
      { partitionKey := pk
        data := if (livePart p now).rowList.length > 0 || p.tombstoneTimestamp.isSome then
            some (livePart p now) else none
        liveRowCount := (livePart p now).rowList.length
        wasTruncated := false } := by
  obtain ⟨hdata, hcount⟩ := foldl_filterRow_rowList p now tracker
  simp only [fromPartitionData, hdata, hcount]
  rfl

variable {tracker : TombstoneTracker}

theorem livePart_eq_empty {pk : Bytes}
    (h : (fromPartitionData pk p now tracker).1.data = none) :
    livePart p now = .empty := by
  rw [fromPartitionData_fst] at h
  simp only [ite_eq_right_iff, reduceCtorEq, imp_false, Bool.or_eq_true, decide_eq_true_eq,
    not_or, Nat.not_lt, Nat.le_zero, length_eq_zero_iff] at h
  have htomb : (livePart p now).tombstone = none :=
    tombstone_eq_none.mpr (by simpa [livePart] using h.2)
  rw [← foldl_applyRow_rowList (p := livePart p now) rows_empty htomb.symm, h.1]
  rfl

theorem fromPartitionData_data {pk : Bytes} {q : PartitionData}
    (h : (fromPartitionData pk p now tracker).1.data = some q) :
    q = livePart p now := by
  rw [fromPartitionData_fst] at h
  simp only [ite_none_right_eq_some, Option.some.injEq] at h
  exact h.2.symm

theorem elim_fromPartitionData (pk : Bytes) (p : PartitionData) (now : Int32)
    (tracker : TombstoneTracker) (ck : Bytes) :
    ((fromPartitionData pk p now tracker).1.data.bind (·.rows[ck]?)).elim [] Row.cells =
      answeredCells p now ck := by
  rw [answeredCells, ← getElem?_livePart]
  cases hdata : (fromPartitionData pk p now tracker).1.data with
  | none => simp [livePart_eq_empty hdata]
  | some q => simp [fromPartitionData_data hdata]

/-- The tombstones that are counted in a row. -/
def rowTombstones (ts : Option Int64) (now : Int32) (row : Row) : Nat :=
  if row.isTombstone || hides ts row then 1 else row.cells.countP fun c => !c.isLiveAt now

theorem count_filterRow (ts : Option Int64) (now : Int32) (s : Filtering) (row : Row) :
    (filterRow ts now s row).tracker.count = s.tracker.count + rowTombstones ts now row := by
  unfold filterRow rowTombstones
  by_cases htomb : row.isTombstone = true
  · simp [htomb, TombstoneTracker.trackRowTombstone]
  · by_cases hhide : hides ts row = true
    · simp [htomb, hhide, TombstoneTracker.trackRowTombstone]
    · rw [if_neg htomb, if_neg hhide, if_neg (by simp [htomb, hhide]),
        ← (liveCells_spec now s.tracker row.cells).2]
      simp only
      split <;> rfl

theorem count_foldl_filterRow (ts : Option Int64) (now : Int32) (rows : List Row) (s : Filtering) :
    (rows.foldl (filterRow ts now) s).tracker.count =
      s.tracker.count + (rows.map (rowTombstones ts now)).sum := by
  induction rows generalizing s with
  | nil => simp
  | cons row rows ih =>
    rw [foldl_cons, ih, count_filterRow, map_cons, sum_cons, Nat.add_assoc]

/-- A tombstone is counted if there is one of the partition, of a row or of a cell. -/
theorem fromPartition_tombstonesRead_pos (pk : Bytes) (p : PartitionData) (now : Int32) :
    0 < (DataResponse.fromPartition pk p now).tombstonesRead ↔ p.tombstoneTimestamp.isSome ∨
        ∃ r ∈ p.rowList, r.isTombstone = true ∨ ∃ c ∈ r.cells, c.isLiveAt now = false := by
  have hcount : (DataResponse.fromPartition pk p now).tombstonesRead =
      (filteringStart p (.new {})).tracker.count +
        (p.rowList.map (rowTombstones p.tombstoneTimestamp now)).sum :=
    count_foldl_filterRow _ _ _ _
  have hstart : (filteringStart p (.new {})).tracker.count =
      if p.tombstoneTimestamp.isSome then 1 else 0 := by
    have hpair := p.paired
    unfold filteringStart
    cases hts : p.tombstoneTimestamp with
    | none => rfl
    | some ts =>
      cases hldt : p.tombstoneLocalDeletionTime with
      | none => simp [hts, hldt] at hpair
      | some ldt => exact TombstoneTracker.count_track _
  rw [hcount, hstart]
  cases hts : p.tombstoneTimestamp with
  | some ts => simp
  | none =>
    -- without a partition tombstone no row is hidden
    have hrow (r : Row) : 0 < rowTombstones none now r ↔
        r.isTombstone = true ∨ ∃ c ∈ r.cells, c.isLiveAt now = false := by
      unfold rowTombstones
      by_cases hmark : r.isTombstone = true
      · simp [hmark]
      · simp [hmark, hides]
    simp only [isSome_none, Bool.false_eq_true, if_false, Nat.zero_add, false_or, ← hrow]
    constructor
    · intro hpos
      by_contra hnone
      push Not at hnone
      have hzero : (p.rowList.map (rowTombstones none now)).sum = 0 := by
        rw [sum_eq_zero_iff]
        simpa using hnone
      omega
    · rintro ⟨r, hr, hpos⟩
      exact lt_of_lt_of_le hpos (single_le_sum (by simp) _ (mem_map.mpr ⟨r, hr, rfl⟩))

theorem mem_answeredCells {ck : Bytes} : c ∈ answeredCells p now ck ↔
      ∃ r, p.rows[ck]? = some r ∧ r.isTombstone = false ∧
        (∀ t, p.tombstone = some t → ∃ c' ∈ r.cells, t.1 < c'.timestamp) ∧
        c ∈ r.cells ∧ c.isLiveAt now = true := by
  have htomb (r : Row) : hides p.tombstoneTimestamp r = false ↔
      ∀ t, p.tombstone = some t → ∃ c' ∈ r.cells, t.1 < c'.timestamp := by
    rw [hides_eq_false]
    constructor
    · intro h t ht
      exact h t.1 (tombstone_eq_some.mp ht).1
    · intro h ts hts
      obtain ⟨ldt, hldt⟩ := isSome_iff_exists.mp
        (p.paired.symm.trans (isSome_iff_exists.mpr ⟨ts, hts⟩))
      exact h (ts, ldt) (tombstone_eq_some.mpr ⟨hts, hldt⟩)
  unfold answeredCells
  cases hr : p.rows[ck]? with
  | none => simp
  | some r =>
    simp only [bind_some, Option.some.injEq, exists_eq_left']
    constructor
    · intro h
      cases hkept : keptRow p.tombstoneTimestamp now r with
      | none => simp [hkept] at h
      | some r' =>
        obtain ⟨hmark, hhide, -, rfl⟩ := keptRow_eq_some.mp hkept
        rw [hkept] at h
        obtain ⟨hc, hlive⟩ := mem_filter.mp h
        exact ⟨hmark, (htomb r).mp hhide, hc, hlive⟩
    · rintro ⟨hmark, hhide, hc, hlive⟩
      have hmem : c ∈ r.cells.filter (·.isLiveAt now) := mem_filter.mpr ⟨hc, hlive⟩
      rw [keptRow_eq_some.mpr ⟨hmark, (htomb r).mpr hhide, ne_nil_of_mem hmem, rfl⟩]
      exact hmem

end CassandraVerified.Read
