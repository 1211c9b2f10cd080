import CassandraVerified.Storage.Format.Filtered

/-!
# Proofs: rich rows that are written as plain ones

The columns of a row that comes back from a file are all simple ones, its primary key is not live,
and its deletion has the timestamp of the newest cell. The row is the same as before only if nothing
that can be seen depends on this (`RowData.sameUnder_readBack_iff`).
-/

namespace CassandraVerified.Storage

open List
open Std (ExtTreeMap)
open TreeMap ColumnData CellData ComplexColumnData

/-- A row that was written and read. -/
def RowData.readBack (r : RowData) : RowData := .ofRow r.toRow

theorem DeletionTime.isLive_iff {d : DeletionTime} : d.isLive = true ↔ d = .live := by
  cases d
  simp [isLive, live]

/-- The cell without its path: all that the conversions lose of a cell. -/
def CellData.withoutPath (c : CellData) : CellData := { c with path := none }

namespace CellData

theorem ofCell_toCell (c : CellData) : ofCell c.toCell = c.withoutPath := by
  have hldt : (if c.localDeletionTime = noDeletionTime then none
      else some c.localDeletionTime).getD noDeletionTime = c.localDeletionTime := by
    split
    · next h => exact h.symm
    · rfl
  simp only [ofCell, toCell, withoutPath, hldt]

theorem mergeWith_withoutPath (c other : CellData) :
    c.withoutPath.mergeWith other.withoutPath = (c.mergeWith other).withoutPath := by
  unfold mergeWith
  rw [apply_ite withoutPath, apply_ite withoutPath]
  rfl

theorem isLiveAfter_withoutPath (c : CellData) (now : Int32) (d : DeletionTime) :
    c.withoutPath.isLiveAfter now d = c.isLiveAfter now d := rfl

theorem toCell_withoutPath (c : CellData) : c.withoutPath.toCell = c.toCell := rfl

end CellData

/-- Adds a cell to those of the same column. -/
def mergeInto (merged : Option CellData) (cell : CellData) : Option CellData :=
  some (merged.elim cell (·.mergeWith cell))

theorem foldl_mergeInto_withoutPath (merged : Option CellData) (cells : List CellData) :
    (cells.map withoutPath).foldl mergeInto (merged.map withoutPath) =
      (cells.foldl mergeInto merged).map withoutPath := by
  induction cells generalizing merged with
  | nil => rfl
  | cons cell cells ih =>
    rw [map_cons, foldl_cons, foldl_cons, ← ih]
    cases merged with
    | none => rfl
    | some c => simp [mergeInto, mergeWith_withoutPath]

namespace RowData

theorem getElem?_addCell (r : RowData) (cell : CellData) (name : String) :
    (r.addCell cell).columns[name]? =
      if cell.column = name then mergedColumn cell r.columns[name]? else r.columns[name]? := by
  simp only [addCell, ExtTreeMap.getElem?_alter, Std.compare_eq_iff_eq]
  split_ifs with h
  · rw [h]
  · rfl

theorem getElem?_foldl_addCell (cells : List CellData) {r : RowData} {name : String}
    {merged : Option CellData} (h : r.columns[name]? = merged.map .simple) :
    (cells.foldl addCell r).columns[name]? =
      ((cells.filter (·.column = name)).foldl mergeInto merged).map .simple := by
  induction cells generalizing r merged with
  | nil => exact h
  | cons cell cells ih =>
    rw [foldl_cons]
    by_cases hname : cell.column = name
    · rw [filter_cons_of_pos (by simpa using hname), foldl_cons]
      refine ih ?_
      rw [getElem?_addCell, if_pos hname, h]
      cases merged <;> rfl
    · rw [filter_cons_of_neg (by simpa using hname)]
      refine ih ?_
      rw [getElem?_addCell, if_neg hname, h]

end RowData

namespace ColumnData

/-- The cell that is left of a column. -/
def merged : ColumnData → Option CellData
  | simple cell => some cell
  | complex data => data.merged

theorem column_of_mem_toCells {c : ColumnData} {cell : Cell} (h : cell ∈ c.toCells) :
    cell.column = c.column := by
  cases c with
  | simple d =>
    rw [mem_singleton.mp h]
    rfl
  | complex data =>
    obtain ⟨d, hd, rfl⟩ := mem_map.mp h
    obtain ⟨path, hpath⟩ := mem_values.mp hd
    exact data.named path d hpath

theorem foldl_mergeInto_toCells (c : ColumnData) :
    (c.toCells.map ofCell).foldl mergeInto none = c.merged.map withoutPath := by
  cases c with
  | simple cell => exact congrArg some cell.ofCell_toCell
  | complex data =>
    have hcells : (complex data).toCells.map ofCell =
        (TreeMap.values data.cells).map withoutPath := by
      simp only [toCells, map_map]
      exact map_congr_left fun cell _ => cell.ofCell_toCell
    rw [hcells]
    exact foldl_mergeInto_withoutPath none _

end ColumnData

namespace RowData

theorem foldl_addCell_frame (cells : List Cell) (r : RowData) :
    (cells.foldl (fun data c => data.addCell (.ofCell c)) r).clusteringKey = r.clusteringKey ∧
      (cells.foldl (fun data c => data.addCell (.ofCell c)) r).livenessInfo = r.livenessInfo ∧
      (cells.foldl (fun data c => data.addCell (.ofCell c)) r).deletion = r.deletion := by
  induction cells generalizing r with
  | nil => exact ⟨rfl, rfl, rfl⟩
  | cons c cells ih => exact ih (r.addCell (.ofCell c))

section ReadBack

variable (r : RowData)

theorem clusteringKey_readBack : r.readBack.clusteringKey = r.clusteringKey := by
  refine (foldl_addCell_frame _ _).1.trans ?_
  split <;> rfl

theorem livenessInfo_readBack : r.readBack.livenessInfo = .empty := by
  refine (foldl_addCell_frame _ _).2.1.trans ?_
  split <;> rfl

theorem deletion_readBack : r.readBack.deletion =
    if r.deletion.isLive then .live
    else ⟨r.toRow.maxTimestamp.getD 0, r.deletion.localDeletionTime⟩ := by
  refine (foldl_addCell_frame _ _).2.2.trans ?_
  cases hlive : r.deletion.isLive with
  | true => simp [toRow, hlive, new]
  | false => simp [toRow, hlive]

theorem getElem?_readBack (name : String) : r.readBack.columns[name]? =
    r.columns[name]?.bind fun c => c.merged.map fun cell => .simple cell.withoutPath := by
  have hstart : ∀ d : RowData, (∀ name : String, d.columns[name]? = none) →
      (r.toRow.cells.foldl (fun data c => data.addCell (.ofCell c)) d).columns[name]? =
        r.columns[name]?.bind fun c => c.merged.map fun cell => .simple cell.withoutPath := by
    intro d hd
    have hcells : (r.toRow.cells.map ofCell).filter (·.column = name) =
        r.columns[name]?.elim [] fun c => c.toCells.map ofCell := by
      have hkey : ∀ (k : String) (c : ColumnData), r.columns[k]? = some c →
          ∀ cell ∈ c.toCells.map ofCell, cell.column = k := by
        intro k c hc cell hcell
        obtain ⟨x, hx, rfl⟩ := mem_map.mp hcell
        exact (column_of_mem_toCells hx).trans (r.keyed k c hc)
      rw [← filter_flatMap_values r.columns _ CellData.column hkey name, toRow, map_flatMap]
    have hnone : d.columns[name]? = (none : Option CellData).map .simple := hd name
    have hfold := getElem?_foldl_addCell (r.toRow.cells.map ofCell) hnone
    rw [foldl_map, hcells] at hfold
    rw [hfold]
    cases r.columns[name]? with
    | none => rfl
    | some c =>
      simp only [Option.elim, Option.bind_some, foldl_mergeInto_toCells]
      rw [Option.map_map]
      rfl
  refine hstart _ fun name => ?_
  split <;> simp [new]

end ReadBack

end RowData

theorem DeletionTime.newer_newer (d other : DeletionTime) :
    (d.newer other).newer other = d.newer other := by
  unfold newer
  split_ifs <;> rfl

namespace ColumnData

variable (c : ColumnData) (now : Int32) (d : DeletionTime)

/-- A cell that is live at a time, after a deletion. -/
def liveCell : Option Bytes → Option CellData :=
  match c with
  | simple cell => fun path => if path = none ∧ cell.isLiveAfter now d then some cell else none
  | complex data => fun path => path.bind fun path => data.cells[path]?.filter (data.retains now d)

attribute [local simp] liveCell

theorem liveCell_withoutPath (cell : CellData) (path : Option Bytes) :
    ((simple cell.withoutPath).liveCell now d path).map toCell =
      ((simple cell).liveCell now d path).map toCell := by
  cases path with
  | none =>
    cases h : cell.isLiveAfter now d <;>
      simp [isLiveAfter_withoutPath, toCell_withoutPath]
  | some path => rfl

theorem isLiveAfter_iff : c.isLiveAfter now d = true ↔ ∃ path cell, c.liveCell now d path = some cell := by
  cases c with
  | simple cell => simp [isLiveAfter]
  | complex data =>
    have hvalues : data.isEmptyAfter now d = false ↔
        ∃ cell ∈ TreeMap.values data.cells, data.retains now d cell = true := by
      simp [isEmptyAfter, liveCellsAfter]
    simp only [isLiveAfter, Bool.not_eq_true', hvalues, mem_values, liveCell]
    constructor
    · rintro ⟨cell, ⟨path, hpath⟩, hret⟩
      exact ⟨some path, cell, by simp [hpath, hret]⟩
    · rintro ⟨path, cell, h⟩
      obtain ⟨path, rfl, h⟩ := Option.bind_eq_some_iff.mp h
      obtain ⟨h, hret⟩ := Option.filter_eq_some_iff.mp h
      exact ⟨cell, ⟨path, h⟩, hret⟩

theorem getElem?_retainLiveCellsAfter (data : ComplexColumnData) (path : Bytes) :
    (data.retainLiveCellsAfter now d).cells[path]? =
      data.cells[path]?.filter (data.retains now d) := by
  simp only [retainLiveCellsAfter, ExtTreeMap.getElem?_filterMap']
  cases data.cells[path]? with
  | none => rfl
  | some cell => simp [Option.filter_some]

theorem isSome_liveAfter : (c.liveAfter now d).isSome = c.isLiveAfter now d := by
  rw [Bool.eq_iff_iff, isLiveAfter_iff]
  cases c with
  | simple cell => simp [liveAfter]
  | complex data =>
    have hempty : (data.retainLiveCellsAfter now d).cells.isEmpty = true ↔
        ∀ path, (complex data).liveCell now d path = none := by
      simp only [isEmpty_iff_getElem?, getElem?_retainLiveCellsAfter, liveCell]
      refine ⟨fun h path => ?_, fun h path => h (some path)⟩
      cases path with
      | none => rfl
      | some path => exact h path
    have hlive : ((complex data).liveAfter now d).isSome = true ↔
        ¬(data.retainLiveCellsAfter now d).cells.isEmpty = true := by simp [liveAfter]
    rw [hlive, hempty, not_forall]
    exact exists_congr fun path => Option.ne_none_iff_exists'

variable {c now d} in
theorem isLiveAfter_of_liveAfter {c' : ColumnData} (h : c.liveAfter now d = some c') :
    c'.isLiveAfter now d = true := by
  cases c with
  | simple cell =>
    simp only [liveAfter, Option.ite_none_right_eq_some] at h
    rw [← Option.some.inj h.2]
    exact h.1
  | complex data =>
    simp only [liveAfter, Option.ite_none_left_eq_some] at h
    rw [← Option.some.inj h.2, isLiveAfter_iff]
    have hne := h.1
    rw [isEmpty_iff_getElem?, not_forall] at hne
    obtain ⟨path, hpath⟩ := hne
    obtain ⟨cell, hcell⟩ := Option.ne_none_iff_exists'.mp hpath
    refine ⟨some path, cell, ?_⟩
    have hret := hcell
    rw [getElem?_retainLiveCellsAfter, Option.filter_eq_some_iff] at hret
    exact Option.filter_eq_some_iff.mpr ⟨hcell, hret.2⟩

theorem cell?_liveAfter (path : Option Bytes) :
    (c.liveAfter now d).bind (·.cell? path) = (c.liveCell now d path).map toCell := by
  cases c with
  | simple cell =>
    cases path <;> cases h : cell.isLiveAfter now d <;> simp [liveAfter, cell?, h]
  | complex data =>
    cases path with
    | none => cases h : (data.retainLiveCellsAfter now d).cells.isEmpty <;>
        simp [liveAfter, cell?, h]
    | some path =>
      have hcell := getElem?_retainLiveCellsAfter now d data path
      cases h : (data.retainLiveCellsAfter now d).cells.isEmpty with
      | false => simp [liveAfter, cell?, h, hcell]
      | true =>
        rw [isEmpty_iff_getElem?.mp h] at hcell
        simp [liveAfter, h, ← hcell]

end ColumnData

namespace RowData

variable (r : RowData) (now : Int32) (d : DeletionTime)

/-- Whether the primary key is live at a time, after a deletion. -/
def keyIsLiveAfter : Bool :=
  r.livenessInfo.isLive now && rowTimestampSurvives r.livenessInfo.timestamp d

theorem hasLiveDataAfter_iff : r.hasLiveDataAfter now d = true ↔
    r.keyIsLiveAfter now (r.activeDeletion d) = true ∨
      ∃ (name : String) (c : ColumnData), r.columns[name]? = some c ∧
        c.isLiveAfter now (r.activeDeletion d) = true := by
  have hcolumns : (TreeMap.values r.columns).any (·.isLiveAfter now (r.activeDeletion d)) = true ↔
      ∃ (name : String) (c : ColumnData), r.columns[name]? = some c ∧
        c.isLiveAfter now (r.activeDeletion d) = true := by
    simp only [any_eq_true, TreeMap.mem_values]
    constructor
    · rintro ⟨c, ⟨name, hname⟩, hc⟩
      exact ⟨name, c, hname, hc⟩
    · rintro ⟨name, c, hname, hc⟩
      exact ⟨c, ⟨name, hname⟩, hc⟩
  rw [← hcolumns, hasLiveDataAfter, keyIsLiveAfter]
  split <;> simp_all

theorem activeDeletion_activeDeletion :
    (r.retainLive now (r.activeDeletion d)).activeDeletion (r.activeDeletion d) =
      r.activeDeletion d :=
  DeletionTime.newer_newer d r.deletion

theorem keyIsLiveAfter_retainLive : (r.retainLive now d).keyIsLiveAfter now d =
    r.keyIsLiveAfter now d := by
  simp only [keyIsLiveAfter, retainLive]
  cases h : rowTimestampSurvives r.livenessInfo.timestamp d with
  | true => simp [h]
  | false => simp [LivenessInfo.isLive, LivenessInfo.isEmpty, LivenessInfo.empty]

theorem getElem?_retainLive (name : String) : (r.retainLive now d).columns[name]? =
    r.columns[name]?.bind (·.liveAfter now d) := by
  simp [retainLive]

theorem hasLiveDataAfter_retainLive :
    (r.retainLive now (r.activeDeletion d)).hasLiveDataAfter now (r.activeDeletion d) =
      r.hasLiveDataAfter now d := by
  rw [Bool.eq_iff_iff, hasLiveDataAfter_iff, hasLiveDataAfter_iff, activeDeletion_activeDeletion,
    keyIsLiveAfter_retainLive]
  refine or_congr_right (exists_congr fun name => ?_)
  rw [getElem?_retainLive]
  constructor
  · rintro ⟨c', hc', -⟩
    obtain ⟨c, hc, hlive⟩ := Option.bind_eq_some_iff.mp hc'
    exact ⟨c, hc, by rw [← isSome_liveAfter, hlive]; rfl⟩
  · rintro ⟨c, hc, hlive⟩
    rw [← isSome_liveAfter] at hlive
    obtain ⟨c', hc'⟩ := Option.isSome_iff_exists.mp hlive
    exact ⟨c', by rw [hc, Option.bind_some, hc'], isLiveAfter_of_liveAfter hc'⟩

theorem isSome_liveDataAfter : (r.liveDataAfter now d).isSome = r.hasLiveDataAfter now d := by
  rw [← hasLiveDataAfter_retainLive]
  simp only [liveDataAfter]
  split <;> simp_all

theorem cell?_liveDataAfter (column : String) (path : Option Bytes) :
    (r.liveDataAfter now d).bind (·.cell? column path) = r.columns[column]?.bind fun c =>
        (c.liveCell now (r.activeDeletion d) path).map toCell := by
  have hcell : ∀ c : ColumnData, (c.liveCell now (r.activeDeletion d) path).map toCell =
      (c.liveAfter now (r.activeDeletion d)).bind (·.cell? path) := fun c =>
    (c.cell?_liveAfter now _ path).symm
  simp only [hcell, liveDataAfter]
  split
  · rw [Option.bind_some, cell?, getElem?_retainLive, Option.bind_assoc]
  · next hdead =>
    -- if nothing is live, then no cell of the column is
    rw [hasLiveDataAfter_retainLive, hasLiveDataAfter_iff, not_or] at hdead
    rw [Option.bind_none]
    cases hc : r.columns[column]? with
    | none => rfl
    | some c =>
      have hnone : ¬(c.liveAfter now (r.activeDeletion d)).isSome = true := fun hsome =>
        hdead.2 ⟨column, c, hc, by rwa [← isSome_liveAfter]⟩
      rw [Option.bind_some, Option.not_isSome_iff_eq_none.mp hnone, Option.bind_none]

/-- A cell that can be seen at a time. -/
def liveCell? (r : RowData) (now : Int32) (d : DeletionTime) (column : String)
    (path : Option Bytes) : Option Cell :=
  r.columns[column]?.bind fun c => (c.liveCell now (r.activeDeletion d) path).map toCell

theorem sameUnder_iff {d : DeletionTime} {r r' : RowData} :
    r.SameUnder d r' ↔ r'.clusteringKey = r.clusteringKey ∧ r'.deletion = r.deletion ∧
      (∀ now, r'.hasLiveDataAfter now d = r.hasLiveDataAfter now d) ∧
      ∀ now column path, r'.liveCell? now d column path = r.liveCell? now d column path := by
  constructor
  · rintro ⟨hck, hdel, hlive, hcells⟩
    refine ⟨hck, hdel, fun now => ?_, fun now column path => ?_⟩
    · rw [← isSome_liveDataAfter, ← isSome_liveDataAfter, hlive]
    · rw [liveCell?, liveCell?, ← cell?_liveDataAfter, ← cell?_liveDataAfter, hcells]
  · rintro ⟨hck, hdel, hlive, hcells⟩
    refine ⟨hck, hdel, fun now => ?_, fun now column path => ?_⟩
    · rw [isSome_liveDataAfter, isSome_liveDataAfter, hlive]
    · rw [cell?_liveDataAfter, cell?_liveDataAfter]
      exact hcells now column path

theorem deletion_readBack_iff (r : RowData) : r.readBack.deletion = r.deletion ↔
    r.deletion.isLive = true ∨ r.deletion.markedForDeleteAt = r.toRow.maxTimestamp.getD 0 := by
  rw [deletion_readBack]
  by_cases hlive : r.deletion.isLive = true
  · simp only [hlive, if_true, true_or, iff_true]
    exact (DeletionTime.isLive_iff.mp hlive).symm
  · rw [if_neg hlive, or_iff_right hlive]
    constructor
    · intro h
      rw [← h]
    · intro h
      rw [← h]

section Live

variable {r : RowData} {now : Int32} {d : DeletionTime}

section

variable (hdel : r.readBack.deletion = r.deletion)

include hdel

theorem activeDeletion_readBack : r.readBack.activeDeletion d = r.activeDeletion d := by
  rw [activeDeletion, hdel, activeDeletion]

theorem liveCell?_readBack_simple {column : String} {cell : CellData}
    (hc : r.columns[column]? = some (.simple cell)) (path : Option Bytes) :
    r.readBack.liveCell? now d column path = r.liveCell? now d column path := by
  rw [liveCell?, liveCell?, getElem?_readBack, activeDeletion_readBack hdel, hc]
  exact liveCell_withoutPath now _ cell path

/-- A collection is the same after reading if nothing of it can be seen. -/
theorem liveCell?_readBack_complex {column : String} {data : ComplexColumnData}
    (hc : r.columns[column]? = some (.complex data)) :
    (∀ path, r.readBack.liveCell? now d column path = r.liveCell? now d column path) ↔
      data.liveCellsAfter now (r.activeDeletion d) = [] ∧
        ∀ cell ∈ data.merged, cell.isLiveAfter now (r.activeDeletion d) = false := by
  have hlist : data.liveCellsAfter now (r.activeDeletion d) = [] ↔
      ∀ path, r.liveCell? now d column path = none := by
    have hall := isLiveAfter_iff (.complex data) now (r.activeDeletion d)
    simp only [liveCell?, hc, Option.bind_some, Option.map_eq_none_iff]
    rw [← not_iff_not, not_forall]
    refine Iff.trans ?_ (hall.trans (exists_congr fun path => Option.ne_none_iff_exists'.symm))
    simp [ColumnData.isLiveAfter, isEmptyAfter]
  have hback : ∀ path, r.readBack.liveCell? now d column path =
      if path = none then
        (data.merged.filter (·.isLiveAfter now (r.activeDeletion d))).map toCell
      else none := by
    intro path
    rw [liveCell?, getElem?_readBack, activeDeletion_readBack hdel, hc]
    simp only [Option.bind_some, ColumnData.merged]
    cases data.merged with
    | none => simp
    | some cell =>
      refine (liveCell_withoutPath now _ cell path).trans ?_
      cases path <;> simp [ColumnData.liveCell, Option.filter]
  rw [hlist]
  constructor
  · intro h
    have hnone : ∀ path, r.liveCell? now d column path = none := by
      intro path
      cases path with
      | none => simp [liveCell?, hc, ColumnData.liveCell]
      | some path => rw [← h, hback]; rfl
    refine ⟨hnone, fun cell hcell => ?_⟩
    have hmerged := h none
    rw [hback, hnone, if_pos rfl, Option.map_eq_none_iff, Option.filter_eq_none_iff] at hmerged
    simpa using hmerged cell hcell
  · rintro ⟨hnone, hmerged⟩ path
    rw [hback, hnone]
    split
    · rw [Option.map_eq_none_iff, Option.filter_eq_none_iff]
      intro cell hcell
      simp [hmerged cell hcell]
    · rfl

end

/-- No collection shows anything, neither before nor after it was written. -/
def CollectionsDead (r : RowData) (now : Int32) (d : DeletionTime) : Prop :=
  ∀ (name : String) (data : ComplexColumnData), r.columns[name]? = some (.complex data) →
    data.liveCellsAfter now (r.activeDeletion d) = [] ∧
      ∀ cell ∈ data.merged, cell.isLiveAfter now (r.activeDeletion d) = false

/-- A cell outside of collections is live. -/
def SimpleLive (r : RowData) (now : Int32) (d : DeletionTime) : Prop :=
  ∃ (name : String) (cell : CellData), r.columns[name]? = some (.simple cell) ∧
    cell.isLiveAfter now (r.activeDeletion d) = true

theorem CollectionsDead.hasLiveDataAfter_iff (h : r.CollectionsDead now d) :
    r.hasLiveDataAfter now d = true ↔
      r.keyIsLiveAfter now (r.activeDeletion d) = true ∨ r.SimpleLive now d := by
  rw [RowData.hasLiveDataAfter_iff]
  refine or_congr_right ⟨?_, ?_⟩
  · rintro ⟨name, c, hc, hlive⟩
    cases c with
    | simple cell => exact ⟨name, cell, hc, hlive⟩
    | complex data =>
      simp [ColumnData.isLiveAfter, isEmptyAfter, (h name data hc).1] at hlive
  · rintro ⟨name, cell, hc, hlive⟩
    exact ⟨name, .simple cell, hc, hlive⟩

/-- After reading, the primary key is never live. -/
theorem CollectionsDead.hasLiveDataAfter_readBack_iff (h : r.CollectionsDead now d)
    (hdel : r.readBack.deletion = r.deletion) :
    r.readBack.hasLiveDataAfter now d = true ↔ r.SimpleLive now d := by
  have hkey : r.readBack.keyIsLiveAfter now (r.activeDeletion d) = false := by
    rw [keyIsLiveAfter, livenessInfo_readBack]
    rfl
  rw [RowData.hasLiveDataAfter_iff, activeDeletion_readBack hdel, hkey,
    or_iff_right Bool.false_ne_true]
  constructor
  · rintro ⟨name, c', hc', hlive⟩
    rw [getElem?_readBack] at hc'
    obtain ⟨c, hc, hmerged⟩ := Option.bind_eq_some_iff.mp hc'
    obtain ⟨cell, hcell, rfl⟩ := Option.map_eq_some_iff.mp hmerged
    cases c with
    | simple cell' =>
      cases hcell
      exact ⟨name, cell, hc, hlive⟩
    | complex data => exact absurd hlive (by
        simp [ColumnData.isLiveAfter, isLiveAfter_withoutPath, (h name data hc).2 cell hcell])
  · rintro ⟨name, cell, hc, hlive⟩
    exact ⟨name, .simple cell.withoutPath, by rw [getElem?_readBack, hc]; rfl, hlive⟩

end Live

/-- A row that comes back can be told from the one written, unless it has nothing that gets lost. -/
theorem sameUnder_readBack_iff (d : DeletionTime) (r : RowData) :
    r.SameUnder d r.readBack ↔ r.Survives d := by
  rw [sameUnder_iff]
  constructor
  · rintro ⟨-, hdel, hlive, hcells⟩
    have hdead : ∀ now, r.CollectionsDead now d := fun now name data hc =>
      (liveCell?_readBack_complex hdel hc).mp (hcells now name)
    refine ⟨(deletion_readBack_iff r).mp hdel, fun name data hc now => hdead now name data hc, ?_⟩
    intro now hkey hsurvives
    have hrow : r.hasLiveDataAfter now d = true :=
      (hdead now).hasLiveDataAfter_iff.mpr (.inl (by rw [keyIsLiveAfter, hkey, hsurvives]; rfl))
    rw [← hlive] at hrow
    exact ((hdead now).hasLiveDataAfter_readBack_iff hdel).mp hrow
  · intro h
    have hdel := (deletion_readBack_iff r).mpr h.deletion
    have hdead : ∀ now, r.CollectionsDead now d := fun now name data hc => h.complex name data hc now
    refine ⟨clusteringKey_readBack r, hdel, fun now => ?_, fun now column path => ?_⟩
    · rw [Bool.eq_iff_iff, (hdead now).hasLiveDataAfter_readBack_iff hdel,
        (hdead now).hasLiveDataAfter_iff, iff_or_self, keyIsLiveAfter, Bool.and_eq_true]
      exact fun hkey => h.liveness now hkey.1 hkey.2
    · cases hc : r.columns[column]? with
      | none => simp [liveCell?, getElem?_readBack, hc]
      | some c =>
        cases c with
        | simple cell => exact liveCell?_readBack_simple hdel hc path
        | complex data =>
          exact (liveCell?_readBack_complex hdel hc).mpr (h.complex column data hc now) path

end RowData

end CassandraVerified.Storage
