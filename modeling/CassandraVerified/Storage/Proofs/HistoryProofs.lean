import CassandraVerified.Storage.History

/-!
# Partitions implement histories

One lemma for each operation of `PartitionData` says what it does to the view; `view_applyAll` is
the whole run: the view of a partition that received the writes `ws` is `viewOf ws`, provided that
no row lists a column twice.
-/

namespace CassandraVerified.Storage

open List
open Std (ExtTreeMap)
open Write Cell

variable {c : Cell} {r : Row} {ws : List Write} {ck : Bytes} {p : PartitionData}

namespace Cell

theorem rank_lt_iff (c d : Cell) : c.rank < d.rank ↔ c.timestamp < d.timestamp ∨
        c.timestamp = d.timestamp ∧ c.isTombstone = false ∧ d.isTombstone = true := by
  simp only [rank, Prod.Lex.toLex_lt_toLex, Bool.lt_iff]

theorem rank_le_iff (c d : Cell) : c.rank ≤ d.rank ↔ c.timestamp < d.timestamp ∨
        c.timestamp = d.timestamp ∧ (c.isTombstone = true → d.isTombstone = true) := by
  simp only [rank, Prod.Lex.toLex_le_toLex, Bool.le_iff_imp]

theorem timestamp_le_of_rank_le {d : Cell} (h : c.rank ≤ d.rank) : c.timestamp ≤ d.timestamp := by
  rcases (rank_le_iff c d).mp h with h | h
  · exact h.le
  · exact h.1.le

theorem mergeWith_eq_pick (c other : Cell) : c.mergeWith other = Lww.pick rank c other := by
  unfold mergeWith Lww.pick
  simp only [rank_lt_iff]
  by_cases hlt : c.timestamp < other.timestamp
  · simp [hlt]
  · simp only [gt_iff_lt, hlt, false_or, if_false]
    refine if_congr ?_ rfl rfl
    rw [eq_comm (a := other.timestamp)]
    simp [and_comm]

theorem mergeWith_column {other : Cell} (h : c.column = other.column) :
    (c.mergeWith other).column = c.column := by
  rw [mergeWith_eq_pick]
  rcases Lww.pick_eq_or rank c other with hp | hp <;> rw [hp]
  exact h.symm

end Cell

namespace Row

theorem find?_mergeCell (cells : List Cell) (c : Cell) (col : String) :
    (mergeCell cells c).find? (·.column = col) =
      if c.column = col then Lww.merge rank (cells.find? (·.column = col)) (some c)
      else cells.find? (·.column = col) := by
  induction cells with
  | nil =>
    by_cases hc : c.column = col
    · simp [mergeCell, hc]
    · simp [mergeCell, hc]
  | cons d ds ih =>
    unfold mergeCell
    by_cases hd : d.column = c.column
    · have hcol : (d.mergeWith c).column = c.column := (mergeWith_column hd).trans hd
      rw [if_pos hd]
      by_cases hc : c.column = col
      · rw [List.find?_cons_of_pos (by simpa [hcol] using hc),
          List.find?_cons_of_pos (by simpa [hd] using hc), if_pos hc, Lww.merge_some_some,
          mergeWith_eq_pick]
      · simp [hcol, hd, hc]
    · rw [if_neg hd, List.find?_cons, List.find?_cons, ih]
      by_cases hc : d.column = col
      · have hne : ¬ c.column = col := fun h => hd (hc.trans h.symm)
        simp [hc, hne]
      · simp [hc]

theorem find?_foldl_mergeCell (cs cells : List Cell) (col : String) :
    (cs.foldl mergeCell cells).find? (·.column = col) =
      Lww.merge rank (cells.find? (·.column = col)) ((cs.filter (·.column = col)).argmax rank) := by
  induction cs using List.reverseRecOn with
  | nil => simp
  | append_singleton cs c ih =>
    rw [foldl_concat, find?_mergeCell, ih, filter_append]
    by_cases hc : c.column = col
    · rw [if_pos hc, filter_cons_of_pos (by simpa using hc), filter_nil,
        Lww.argmax_concat_eq_merge, Lww.merge_assoc]
    · rw [if_neg hc, filter_cons_of_neg (by simpa using hc), filter_nil,
        append_nil]

theorem map_column_mergeCell (cells : List Cell) (c : Cell) : (mergeCell cells c).map column =
      if c.column ∈ cells.map column then cells.map column
      else cells.map column ++ [c.column] := by
  induction cells with
  | nil => simp [mergeCell]
  | cons d ds ih =>
    unfold mergeCell
    by_cases hd : d.column = c.column
    · simp [hd, mergeWith_column hd]
    · rw [if_neg hd, map_cons, ih, map_cons]
      have hne : c.column ≠ d.column := fun h => hd h.symm
      by_cases hmem : c.column ∈ ds.map column
      · rw [if_pos hmem, if_pos (mem_cons_of_mem _ hmem)]
      · rw [if_neg hmem, if_neg (by simp only [mem_cons, not_or]; exact ⟨hne, hmem⟩),
          cons_append]

theorem nodup_columns_foldl_mergeCell (cs cells : List Cell) (h : (cells.map column).Nodup) :
    ((cs.foldl mergeCell cells).map column).Nodup := by
  induction cs generalizing cells with
  | nil => exact h
  | cons c cs ih =>
    refine ih _ ?_
    rw [map_column_mergeCell]
    split
    · exact h
    · next hmem => exact List.Nodup.append h (nodup_singleton _) (by simpa using hmem)

section

variable (h : r.DistinctColumns)

include h

theorem DistinctColumns.mergeWith (other : Row) : (r.mergeWith other).DistinctColumns :=
  nodup_columns_foldl_mergeCell other.cells r.cells h

theorem DistinctColumns.filter_eq (col : String) :
    r.cells.filter (·.column = col) = (r.cell? col).toList := by
  unfold DistinctColumns at h
  unfold cell?
  generalize r.cells = cells at h ⊢
  induction cells with
  | nil => rfl
  | cons c cs ih =>
    obtain ⟨hc, hcs⟩ := nodup_cons.mp h
    by_cases hcol : c.column = col
    · have hnil : cs.filter (·.column = col) = [] := by
        rw [filter_eq_nil_iff]
        intro d hd hdcol
        exact hc (mem_map.mpr ⟨d, hd, by simp_all⟩)
      rw [filter_cons_of_pos (by simpa using hcol), hnil,
        List.find?_cons_of_pos (by simpa using hcol)]
      rfl
    · rw [filter_cons_of_neg (by simpa using hcol),
        List.find?_cons_of_neg (by simpa using hcol), ih hcs]

theorem cell?_eq_some_iff {col : String} : r.cell? col = some c ↔ c ∈ r.cells ∧ c.column = col := by
  rw [← Option.mem_toList, ← h.filter_eq col]
  simp

theorem argmax_cells (col : String) :
    (r.cells.filter (·.column = col)).argmax rank = r.cell? col := by
  rw [h.filter_eq col]
  cases r.cell? col <;> rfl

end

theorem cell?_mergeWith {other : Row} (r : Row) (h : other.DistinctColumns) (col : String) :
    (r.mergeWith other).cell? col = Lww.merge rank (r.cell? col) (other.cell? col) := by
  rw [← argmax_cells h col]
  exact find?_foldl_mergeCell other.cells r.cells col

end Row

attribute [local simp] View.merge

theorem viewOf_append (ws us : List Write) : viewOf (ws ++ us) = (viewOf ws).merge (viewOf us) := by
  simp [viewOf, cellsOf, tombstonesOf, Lww.argmax_append]

@[simp] theorem View.merge_tombstone (v w : View) :
    (v.merge w).tombstone = Lww.merge Prod.fst v.tombstone w.tombstone := rfl

@[simp] theorem View.merge_touched (v w : View) (ck : Bytes) :
    (v.merge w).touched ck = (v.touched ck || w.touched ck) := rfl

@[simp] theorem View.merge_marked (v w : View) (ck : Bytes) :
    (v.merge w).marked ck = (v.marked ck || w.marked ck) := rfl

@[simp] theorem View.merge_cell (v w : View) (ck : Bytes) (col : String) :
    (v.merge w).cell ck col = Lww.merge rank (v.cell ck col) (w.cell ck col) := rfl

theorem View.merge_assoc (u v w : View) : (u.merge v).merge w = u.merge (v.merge w) := by
  simp only [View.merge, Lww.merge_assoc, Bool.or_assoc]

theorem mem_cellsOf {col : String} : c ∈ cellsOf ws ck col ↔
      ∃ r, row r ∈ ws ∧ r.clusteringKey = ck ∧ c ∈ r.cells ∧ c.column = col := by
  simp only [cellsOf, mem_flatMap]
  constructor
  · rintro ⟨w, hw, hc⟩
    cases w with
    | row r =>
      simp only [cells] at hc
      split at hc
      · next hck =>
        obtain ⟨hc, hcol⟩ := mem_filter.mp hc
        exact ⟨r, hw, hck, hc, by simpa using hcol⟩
      · exact absurd hc (by simp)
    | tombstone ts ldt => exact absurd hc (by simp [cells])
  · rintro ⟨r, hw, hck, hc, hcol⟩
    exact ⟨.row r, hw, by simp [cells, hck, hc, hcol]⟩

theorem mem_tombstonesOf {t : Int64 × Int32} : t ∈ tombstonesOf ws ↔ tombstone t.1 t.2 ∈ ws := by
  simp only [tombstonesOf, mem_filterMap]
  constructor
  · rintro ⟨w, hw, ht⟩
    cases w with
    | row r => exact absurd ht (by simp [tombstone?])
    | tombstone ts ldt =>
      obtain rfl : (ts, ldt) = t := by simpa [tombstone?] using ht
      exact hw
  · intro hw
    exact ⟨_, hw, rfl⟩

theorem viewOf_touched :
    (viewOf ws).touched ck = true ↔ ∃ r, row r ∈ ws ∧ r.clusteringKey = ck := by
  simp only [viewOf, any_eq_true]
  constructor
  · rintro ⟨w, hw, ht⟩
    cases w with
    | row r => exact ⟨r, hw, by simpa [touches] using ht⟩
    | tombstone ts ldt => exact absurd ht (by simp [touches])
  · rintro ⟨r, hw, hck⟩
    exact ⟨.row r, hw, by simpa [touches] using hck⟩

theorem viewOf_marked : (viewOf ws).marked ck = true ↔
      ∃ r, row r ∈ ws ∧ r.clusteringKey = ck ∧ r.isTombstone = true := by
  simp only [viewOf, any_eq_true]
  constructor
  · rintro ⟨w, hw, ht⟩
    cases w with
    | row r => exact ⟨r, hw, by simpa [marks] using ht⟩
    | tombstone ts ldt => exact absurd ht (by simp [marks])
  · rintro ⟨r, hw, hr⟩
    exact ⟨.row r, hw, by simpa [marks] using hr⟩

namespace PartitionData

@[simp] theorem rows_empty (ck : Bytes) : empty.rows[ck]? = none := by
  simp [empty]

theorem getElem?_applyRow (p : PartitionData) (row : Row) (ck : Bytes) :
    (p.applyRow row).rows[ck]? =
      if row.clusteringKey = ck then mergedRow row p.rows[ck]? else p.rows[ck]? := by
  simp only [applyRow, ExtTreeMap.getElem?_alter, Std.compare_eq_iff_eq]
  split_ifs with h
  · rw [h]
  · rfl

@[simp] theorem tombstone_applyRow (p : PartitionData) (row : Row) :
    (p.applyRow row).tombstone = p.tombstone := rfl

@[simp] theorem rows_setTombstone (p : PartitionData) (ts : Int64) (ldt : Int32) :
    (p.setTombstone ts ldt).rows = p.rows := by
  unfold setTombstone
  split
  · split <;> rfl
  · rfl

theorem tombstone_eq_some {ts : Int64} {ldt : Int32} : p.tombstone = some (ts, ldt) ↔
      p.tombstoneTimestamp = some ts ∧ p.tombstoneLocalDeletionTime = some ldt := by
  unfold tombstone
  cases p.tombstoneTimestamp <;> cases p.tombstoneLocalDeletionTime <;> simp

theorem tombstone_eq_none : p.tombstone = none ↔ p.tombstoneTimestamp = none := by
  have h := p.paired
  unfold tombstone
  cases hts : p.tombstoneTimestamp <;> cases hldt : p.tombstoneLocalDeletionTime <;> simp_all

theorem tombstone_setTombstone (p : PartitionData) (ts : Int64) (ldt : Int32) :
    (p.setTombstone ts ldt).tombstone = Lww.merge Prod.fst p.tombstone (some (ts, ldt)) := by
  unfold setTombstone
  cases hp : p.tombstone with
  | none =>
    rw [tombstone_eq_none] at hp
    simp [hp, tombstone]
  | some t =>
    obtain ⟨ts', ldt'⟩ := t
    have hts : p.tombstoneTimestamp = some ts' := (tombstone_eq_some.mp hp).1
    simp only [hts, Lww.merge_some_some, Lww.pick]
    by_cases hle : ts ≤ ts'
    · rw [if_pos hle, if_neg (not_lt.mpr hle), hp]
    · rw [if_neg hle, if_pos (not_le.mp hle)]
      rfl

theorem view_applyRow (p : PartitionData) {row : Row} (h : row.DistinctColumns) :
    (p.applyRow row).view = p.view.merge (viewOf [.row row]) := by
  apply View.ext
  · simp [view, viewOf, tombstonesOf, filterMap_cons, tombstone?]
  · funext ck
    simp only [view, getElem?_applyRow, View.merge, viewOf, any_cons, any_nil,
      touches, Bool.or_false]
    by_cases hck : row.clusteringKey = ck
    · cases p.rows[ck]? <;> simp [hck, mergedRow]
    · simp [hck]
  · funext ck
    simp only [view, getElem?_applyRow, View.merge, viewOf, any_cons, any_nil, marks, Bool.or_false]
    by_cases hck : row.clusteringKey = ck
    · cases p.rows[ck]? <;> simp [hck, mergedRow]
    · simp [hck]
  · funext ck col
    simp only [view, getElem?_applyRow, View.merge, viewOf, cellsOf, flatMap_cons,
      flatMap_nil, append_nil, cells]
    by_cases hck : row.clusteringKey = ck
    · rw [if_pos hck, if_pos hck, Row.argmax_cells h col]
      cases hr : p.rows[ck]? with
      | none => simp [mergedRow]
      | some r => simp [mergedRow, Row.cell?_mergeWith r h col]
    · simp [hck]

theorem view_setTombstone (p : PartitionData) (ts : Int64) (ldt : Int32) :
    (p.setTombstone ts ldt).view = p.view.merge (viewOf [.tombstone ts ldt]) := by
  apply View.ext
  · exact tombstone_setTombstone p ts ldt
  · simp [view, viewOf, touches]
  · simp [view, viewOf, marks]
  · simp [view, viewOf, cellsOf, cells]

theorem view_apply (p : PartitionData) {w : Write} (h : w.DistinctColumns) :
    (p.apply w).view = p.view.merge (viewOf [w]) := by
  cases w with
  | row r => exact p.view_applyRow h
  | tombstone ts ldt => exact p.view_setTombstone ts ldt

theorem view_applyAll (p : PartitionData) (h : ∀ w ∈ ws, w.DistinctColumns) :
    (p.applyAll ws).view = p.view.merge (viewOf ws) := by
  induction ws using List.reverseRecOn with
  | nil => simp [applyAll, viewOf, cellsOf, tombstonesOf]
  | append_singleton ws w ih =>
    have hws : ∀ w ∈ ws, w.DistinctColumns := fun w' hw' => h w' (by simp [hw'])
    have hstep : p.applyAll (ws ++ [w]) = (p.applyAll ws).apply w := by
      simp [applyAll]
    rw [hstep, view_apply _ (h w (by simp)), ih hws, View.merge_assoc, viewOf_append]

theorem view_ofWrites (h : ∀ w ∈ ws, w.DistinctColumns) : (ofWrites ws).view = viewOf ws := by
  rw [ofWrites, view_applyAll empty h]
  simp [view, empty, tombstone]

theorem DistinctColumns.apply (hp : p.DistinctColumns) {w : Write} (hw : w.DistinctColumns) :
    (p.apply w).DistinctColumns := by
  intro ck r hr
  cases w with
  | row row =>
    simp only [PartitionData.apply, getElem?_applyRow] at hr
    split at hr
    · cases hold : p.rows[ck]? with
      | none =>
        simp only [hold, mergedRow, Option.some.injEq] at hr
        exact hr ▸ hw
      | some existing =>
        simp only [hold, mergedRow, Option.some.injEq] at hr
        exact hr ▸ (hp ck existing hold).mergeWith row
    · exact hp ck r hr
  | tombstone ts ldt =>
    simp only [PartitionData.apply, rows_setTombstone] at hr
    exact hp ck r hr

theorem DistinctColumns.applyAll (hp : p.DistinctColumns) (hws : ∀ w ∈ ws, w.DistinctColumns) :
    (p.applyAll ws).DistinctColumns := by
  induction ws generalizing p with
  | nil => exact hp
  | cons w ws ih => exact ih (hp.apply (hws w (by simp))) fun w' hw' => hws w' (by simp [hw'])

theorem distinctColumns_empty : empty.DistinctColumns := by
  intro ck r hr
  simp at hr

theorem distinctColumns_ofWrites (h : ∀ w ∈ ws, w.DistinctColumns) :
    (ofWrites ws).DistinctColumns :=
  distinctColumns_empty.applyAll h

end PartitionData

end CassandraVerified.Storage
