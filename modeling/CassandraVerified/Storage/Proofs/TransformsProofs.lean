import CassandraVerified.Storage.Proofs.RowsProofs

/-!
# Proofs: transformations of a stream of rows

A purge shows what the row deletion has covered, and drops a row without live data together with
the tombstones of its columns.
-/

namespace CassandraVerified.Storage

open Option RowData

/-- The column has a cell tombstone or a deletion of the collection that is not purgeable. -/
def ColumnData.HoldsTombstone (gcBefore : Int32) : ColumnData → Prop
  | simple cell => cell.isTombstone ∧ gcBefore ≤ cell.localDeletionTime
  | complex data =>
    data.complexDeletion.isLive = false ∧ gcBefore ≤ data.complexDeletion.localDeletionTime ∨
      ∃ (path : Bytes) (cell : CellData), data.cells[path]? = some cell ∧ cell.isTombstone ∧
        gcBefore ≤ cell.localDeletionTime

namespace RowData

variable (r : RowData) (now gcBefore : Int32)

/-- What is live at a time, after a deletion: the marker of the primary key, and the cells by column
and path. -/
def liveItem (d : DeletionTime) : Option (String × Option Bytes) → Option (LivenessInfo ⊕ CellData)
  | none => if r.keyIsLiveAfter now d then some (.inl r.livenessInfo) else none
  | some (column, path) => (r.columns[column]?.bind fun c => c.liveCell now d path).map .inr

/-- What is live after the deletion of the row itself. -/
def liveNow : Option (String × Option Bytes) → Option (LivenessInfo ⊕ CellData) :=
  r.liveItem now (r.activeDeletion .live)

theorem hasLiveData_iff : r.hasLiveData now = true ↔ ∃ i x, r.liveNow now i = some x := by
  simp only [hasLiveData, hasLiveDataAfter_iff, ColumnData.isLiveAfter_iff]
  constructor
  · rintro (hkey | ⟨column, c, hc, path, cell, hcell⟩)
    · exact ⟨none, _, if_pos hkey⟩
    · exact ⟨some (column, path), .inr cell, by simp [liveNow, liveItem, hc, hcell]⟩
  · rintro ⟨_ | ⟨column, path⟩, x, h⟩
    · exact .inl (ite_none_right_eq_some.mp h).1
    · obtain ⟨cell, hcell, -⟩ := map_eq_some_iff.mp h
      obtain ⟨c, hc, hcell⟩ := bind_eq_some_iff.mp hcell
      exact .inr ⟨column, c, hc, path, cell, hcell⟩

theorem liveNow_clearPurgeable (i : Option (String × Option Bytes)) :
    (r.clearPurgeable gcBefore).liveNow now i =
      if r.deletion.isPurgeable gcBefore then r.liveItem now .live i else r.liveNow now i := by
  unfold clearPurgeable
  split
  · rw [liveNow, activeDeletion, DeletionTime.newer, ite_self]
    rfl
  · rfl

theorem isLive_clearPurgeable : (r.clearPurgeable gcBefore).deletion.isLive = false ↔
    r.deletion.isLive = false ∧ r.deletion.isPurgeable gcBefore = false := by
  unfold clearPurgeable
  split
  · next h => simp [h, DeletionTime.isLive_iff]
  · next h => simp [h]

end RowData

namespace PurgeTransform

variable (t : PurgeTransform) (r : RowData)

/-- A purge changes nothing that is live in a row, and drops no deletion that is not purgeable. -/
structure Transparent : Prop where
  live : ∀ i, (t.applyToRow r).bind (·.liveNow t.nowInSeconds i) = r.liveNow t.nowInSeconds i
  deletion : r.deletion.isLive = false → t.gcBefore ≤ r.deletion.localDeletionTime →
    ∃ r' ∈ t.applyToRow r, r'.deletion = r.deletion
  tombstones : ∀ (column : String) (c : ColumnData), r.columns[column]? = some c →
    c.HoldsTombstone t.gcBefore → ∃ r' ∈ t.applyToRow r, r'.columns[column]? = some c

/-- A purgeable row deletion covers nothing that would be live without it, and a row with a
tombstone in a column that is not purgeable has live data, or a deletion that is not purgeable. -/
structure Harmless : Prop where
  covers : r.deletion.isPurgeable t.gcBefore = true →
    ∀ i, r.liveItem t.nowInSeconds .live i = r.liveNow t.nowInSeconds i
  stays : ∀ (column : String) (c : ColumnData), r.columns[column]? = some c →
    c.HoldsTombstone t.gcBefore → r.hasLiveData t.nowInSeconds = true ∨
      r.deletion.isLive = false ∧ r.deletion.isPurgeable t.gcBefore = false

variable {t r}

theorem mem_applyToRow {r' : RowData} : r' ∈ t.applyToRow r ↔
    r' = r.clearPurgeable t.gcBefore ∧ (r'.hasLiveData t.nowInSeconds = true ∨
      r.deletion.isLive = false ∧ r.deletion.isPurgeable t.gcBefore = false) := by
  rw [← isLive_clearPurgeable]
  simp only [applyToRow, mem_def, ite_none_left_eq_some, Option.some.injEq]
  grind

/-- A row that is dropped has nothing live. -/
theorem bind_applyToRow (i : Option (String × Option Bytes)) :
    (t.applyToRow r).bind (·.liveNow t.nowInSeconds i) =
      (r.clearPurgeable t.gcBefore).liveNow t.nowInSeconds i := by
  ext x
  rw [bind_eq_some_iff]
  constructor
  · rintro ⟨r', hr', h⟩
    exact (mem_applyToRow.mp hr').1 ▸ h
  · intro h
    have hlive := (hasLiveData_iff ..).mpr ⟨i, x, h⟩
    exact ⟨_, mem_applyToRow.mpr ⟨rfl, .inl hlive⟩, h⟩

/-- A purge is transparent to a row exactly if it reveals nothing that the row deletion has covered,
and drops no tombstone of a column. -/
theorem transparent_iff (t : PurgeTransform) (r : RowData) : t.Transparent r ↔ t.Harmless r := by
  have hsame : (∀ i, (r.clearPurgeable t.gcBefore).liveNow t.nowInSeconds i =
      r.liveNow t.nowInSeconds i) ↔ (r.deletion.isPurgeable t.gcBefore = true →
        ∀ i, r.liveItem t.nowInSeconds .live i = r.liveNow t.nowInSeconds i) := by
    cases h : r.deletion.isPurgeable t.gcBefore <;> simp [liveNow_clearPurgeable, h]
  constructor
  · intro h
    have hlive := h.live
    simp only [bind_applyToRow] at hlive
    refine ⟨hsame.mp hlive, fun column c hc htomb => ?_⟩
    obtain ⟨r', hr', -⟩ := h.tombstones column c hc htomb
    obtain ⟨rfl, hkept⟩ := mem_applyToRow.mp hr'
    simpa only [hasLiveData_iff, hlive] using hkept
  · intro h
    have hlive := hsame.mpr h.covers
    refine ⟨fun i => (bind_applyToRow i).trans (hlive i), fun hdel hle => ?_,
      fun column c hc htomb => ?_⟩
    · have hpurge : r.deletion.isPurgeable t.gcBefore = false := by
        simp [DeletionTime.isPurgeable, hle]
      refine ⟨_, mem_applyToRow.mpr ⟨rfl, .inr ⟨hdel, hpurge⟩⟩, ?_⟩
      rw [RowData.clearPurgeable, hpurge]
      rfl
    · have hkept := h.stays column c hc htomb
      simp only [hasLiveData_iff, ← hlive] at hkept
      refine ⟨_, mem_applyToRow.mpr ⟨rfl, by rwa [hasLiveData_iff]⟩, ?_⟩
      unfold RowData.clearPurgeable
      split <;> exact hc

def oneCell (deletion : DeletionTime) (cell : CellData) : RowData :=
  { RowData.new [0x01] with deletion := deletion }.addCell cell

/-- A value comes back that was deleted in second 700, and a tombstone of second 900 is dropped with
its row. -/
theorem not_transparent_oneCell :
    ¬ Transparent ⟨800, 1000⟩ (oneCell ⟨20, 700⟩ ⟨"v", some [0x61], 10, 0, noDeletionTime, none⟩) ∧
      ¬ Transparent ⟨800, 1000⟩ (oneCell .live ⟨"v", none, 10, 0, 900, none⟩) := by
  constructor
  · intro h
    exact absurd (h.live (some ("v", none))) (by decide +kernel)
  · intro h
    obtain ⟨r', hr', -⟩ := h.tombstones "v" (.simple ⟨"v", none, 10, 0, 900, none⟩)
      (by decide +kernel) ⟨by decide, by decide⟩
    have hdropped : applyToRow ⟨800, 1000⟩ (oneCell .live ⟨"v", none, 10, 0, 900, none⟩) =
        none := by decide +kernel
    rw [hdropped] at hr'
    cases hr'

end PurgeTransform

end CassandraVerified.Storage
