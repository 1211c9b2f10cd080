import CassandraVerified.Storage.Scan
import CassandraVerified.Storage.Proofs.LedgerProofs

/-!
# Proofs: merging partitions to the letter

Merges are compared as values, with the order of the cells in a row: merging is associative, and it
changes nothing exactly if the newer source is superseded by the older one.
-/

namespace CassandraVerified.Storage

open List Cell

variable {s r : Row} {p q : PartitionData}

namespace Row

theorem map_column_foldl_mergeCell {cs : List Cell} (h : (cs.map column).Nodup)
    (cells : List Cell) :
    (cs.foldl mergeCell cells).map column =
      cells.map column ++ (cs.map column).filter (· ∉ cells.map column) := by
  induction cs generalizing cells with
  | nil => simp
  | cons c cs ih =>
    rw [map_cons, nodup_cons] at h
    rw [foldl_cons, ih h.2, map_column_mergeCell, map_cons, filter_cons]
    by_cases hc : c.column ∈ cells.map column
    · simp [hc]
    · -- the new column comes only once, so that it filters nothing else out
      have hfilter : (cs.map column).filter (· ∉ cells.map column ++ [c.column]) =
          (cs.map column).filter (· ∉ cells.map column) := by
        refine filter_congr fun col hcol => ?_
        have hne : col ≠ c.column := fun heq => h.1 (heq ▸ hcol)
        simp [hne]
      rw [if_neg hc, hfilter]
      simp [hc]

/-- A list of cells with distinct columns is known by its columns and the cell of each. -/
theorem cells_ext {l l' : List Cell} (h : (l.map column).Nodup)
    (hcols : l.map column = l'.map column)
    (hcells : ∀ col, l.find? (·.column = col) = l'.find? (·.column = col)) : l = l' := by
  induction l generalizing l' with
  | nil => exact (map_eq_nil_iff.mp hcols.symm).symm
  | cons c l ih =>
    cases l' with
    | nil => cases hcols
    | cons c' l' =>
      rw [map_cons, map_cons, List.cons.injEq] at hcols
      rw [map_cons, nodup_cons] at h
      have hc : c = c' := by simpa [List.find?_cons, hcols.1] using hcells c.column
      subst hc
      rw [ih h.2 hcols.2 fun col => ?_]
      by_cases hcol : c.column = col
      · -- neither tail has the column of the first cell
        subst hcol
        have hnone : ∀ {cs : List Cell}, c.column ∉ cs.map column →
            cs.find? (·.column = c.column) = none := by
          intro cs hmem
          rw [List.find?_eq_none]
          intro d hd hdcol
          exact hmem (mem_map.mpr ⟨d, hd, of_decide_eq_true hdcol⟩)
        rw [hnone h.1, hnone (hcols.2 ▸ h.1)]
      · simpa [List.find?_cons, hcol] using hcells col

theorem mergeWith_columns (r : Row) (hs : s.DistinctColumns) :
    (r.mergeWith s).cells.map column = r.cells.map column ++
      (s.cells.map column).filter (· ∉ r.cells.map column) :=
  map_column_foldl_mergeCell hs r.cells

theorem cells_mergeWith_eq {cells : List Cell} (hr : r.DistinctColumns) (hs : s.DistinctColumns)
    (hcols : r.cells.map column ++
      (s.cells.map column).filter (· ∉ r.cells.map column) = cells.map column)
    (hcells : ∀ col, Lww.merge rank (r.cell? col) (s.cell? col) = cells.find? (·.column = col)) :
    (r.mergeWith s).cells = cells := by
  refine cells_ext (hr.mergeWith s) ((mergeWith_columns r hs).trans hcols) fun col => ?_
  rw [← hcells col, ← cell?_mergeWith r hs]
  rfl

theorem mergeWith_assoc {t : Row} (hr : r.DistinctColumns) (hs : s.DistinctColumns)
    (ht : t.DistinctColumns) : (r.mergeWith s).mergeWith t = r.mergeWith (s.mergeWith t) := by
  have hcells : ((r.mergeWith s).mergeWith t).cells = (r.mergeWith (s.mergeWith t)).cells := by
    refine cells_mergeWith_eq (hr.mergeWith s) ht ?_ fun col => ?_
    · rw [mergeWith_columns r hs, mergeWith_columns r (hs.mergeWith t), mergeWith_columns s ht,
        append_assoc, filter_append, filter_filter]
      congr 2
      refine filter_congr fun col _ => ?_
      simp only [mem_append, mem_filter, decide_not, Bool.decide_and, Bool.decide_or]
      by_cases h1 : col ∈ r.cells.map column <;> by_cases h2 : col ∈ s.cells.map column <;>
        simp [h1, h2]
    · rw [cell?_mergeWith r hs, Lww.merge_assoc, ← cell?_mergeWith s ht,
        ← cell?_mergeWith r (hs.mergeWith t)]
      rfl
  have hldt : ((r.mergeWith s).mergeWith t).localDeletionTime =
      (r.mergeWith (s.mergeWith t)).localDeletionTime := by
    cases hr' : r.isTombstone <;> cases hs' : s.isTombstone <;> cases ht' : t.isTombstone <;>
      simp [mergeWith, hr', hs', ht']
  rw [Row.mk.injEq]
  exact ⟨rfl, hcells, Bool.or_assoc _ _ _, hldt⟩

theorem merge_eq_right_iff {a : Cell} {b : Option Cell} :
    Lww.merge rank (some a) b = b ↔ ∃ c, b = some c ∧ (a.rank < c.rank ∨ c = a) := by
  cases b with
  | none => simp [Lww.merge]
  | some c =>
    rw [Lww.merge_some_some, Option.some.injEq, Lww.pick]
    by_cases hlt : a.rank < c.rank
    · simp [hlt]
    · simp [hlt, eq_comm]

/-- A merge gives the second row exactly if it supersedes the first. -/
theorem mergeWith_eq_right_iff (hr : r.DistinctColumns) (hs : s.DistinctColumns)
    (hkey : r.clusteringKey = s.clusteringKey) : r.mergeWith s = s ↔ s.Supersedes r := by
  constructor
  · intro h
    have hcells : (r.mergeWith s).cells = s.cells := congrArg Row.cells h
    refine ⟨?_, fun c hc => ?_, fun htomb => ?_, fun himp => ?_⟩
    · rw [← hcells, mergeWith_columns r hs]
      exact prefix_append _ _
    · have hcell : r.cell? c.column = some c := (cell?_eq_some_iff hr).mpr ⟨hc, rfl⟩
      have hmerge := cell?_mergeWith r hs c.column
      rw [h, hcell] at hmerge
      obtain ⟨c', hc', hnewer⟩ := merge_eq_right_iff.mp hmerge.symm
      obtain ⟨hmem, hcol⟩ := (cell?_eq_some_iff hs).mp hc'
      exact ⟨c', hmem, hcol, hnewer⟩
    · rw [← h, mergeWith_isTombstone, htomb, Bool.true_or]
    · have hldt : (r.mergeWith s).localDeletionTime = s.localDeletionTime := by rw [h]
      rw [← hldt, mergeWith]
      exact (if_neg fun hand => hand.2 (himp hand.1)).symm
  · intro h
    have hcells : (r.mergeWith s).cells = s.cells := by
      refine cells_mergeWith_eq hr hs ?_ fun col => ?_
      · obtain ⟨rest, hrest⟩ := h.columns
        have hnodup : (r.cells.map column ++ rest).Nodup := hrest ▸ hs
        rw [← hrest, filter_append]
        congr 1
        rw [filter_eq_nil_iff.mpr (by simp), nil_append, filter_eq_self]
        intro col hcol
        exact decide_eq_true fun hmem => (nodup_append.mp hnodup).2.2 col hmem col hcol rfl
      · change _ = s.cell? col
        cases hcell : r.cell? col with
        | none => rfl
        | some c =>
          obtain ⟨hmem, rfl⟩ := (cell?_eq_some_iff hr).mp hcell
          obtain ⟨c', hc', hcol, hnewer⟩ := h.cells c hmem
          exact merge_eq_right_iff.mpr ⟨c', (cell?_eq_some_iff hs).mpr ⟨hc', hcol⟩, hnewer⟩
    have htomb : (r.isTombstone || s.isTombstone) = s.isTombstone :=
      Bool.or_eq_right_iff_imp.mpr h.isTombstone
    have hldt : (if s.isTombstone = true ∧ ¬r.isTombstone = true then s.localDeletionTime
        else r.localDeletionTime) = s.localDeletionTime := by
      split
      · rfl
      · next hand => exact h.localDeletionTime fun hs' => not_not.mp fun hr' => hand ⟨hs', hr'⟩
    cases s
    exact Row.mk.injEq .. ▸ ⟨hkey, hcells, htomb, hldt⟩

end Row

namespace PartitionData

/-- The partition `p`, with what an older source has merged in. -/
abbrev mergeOlder (p q : PartitionData) : PartitionData := Engine.mergeRead (some p) q

theorem getElem?_mergeOlder (p q : PartitionData) (ck : Bytes) : (p.mergeOlder q).rows[ck]? =
      match q.rows[ck]? with
      | some r => mergedRow r p.rows[ck]?
      | none => p.rows[ck]? := by
  have hrows := getElem?_foldl_applyRow p (nodup_clusteringKey_rowList q) ck
  rw [find?_rowList] at hrows
  rw [mergeOlder, mergeRead_eq_applyAll, writes, applyAll_append, applyAll_map_row]
  cases q.tombstone with
  | none => exact hrows
  | some t => exact (rows_setTombstone _ _ _).symm ▸ hrows

theorem tombstone_mergeOlder (p q : PartitionData) :
    (p.mergeOlder q).tombstone = Lww.merge Prod.fst p.tombstone q.tombstone := by
  have htomb := tombstone_foldl_applyRow p q.rowList
  rw [mergeOlder, mergeRead_eq_applyAll, writes, applyAll_append, applyAll_map_row]
  cases q.tombstone with
  | none => rw [Lww.merge_none_right]; exact htomb
  | some t => rw [← htomb]; exact tombstone_setTombstone _ _ _

theorem DistinctColumns.mergeOlder (hp : p.DistinctColumns)
    (hq : q.DistinctColumns) : (p.mergeOlder q).DistinctColumns := by
  rw [PartitionData.mergeOlder, mergeRead_eq_applyAll]
  exact hp.applyAll hq.writes

theorem mergeOlder_assoc {s : PartitionData} (hp : p.DistinctColumns) (hq : q.DistinctColumns)
    (hs : s.DistinctColumns) : (p.mergeOlder q).mergeOlder s = p.mergeOlder (q.mergeOlder s) := by
  refine ext_of_tombstone (fun ck => ?_) ?_
  · rw [getElem?_mergeOlder, getElem?_mergeOlder, getElem?_mergeOlder, getElem?_mergeOlder]
    cases hrs : s.rows[ck]? with
    | none => cases hrq : q.rows[ck]? <;> rfl
    | some rs =>
      cases hrq : q.rows[ck]? with
      | none => rfl
      | some rq =>
        cases hrp : p.rows[ck]? with
        | none => rfl
        | some rp =>
          simp only [mergedRow, Row.mergeWith_assoc (hp ck rp hrp) (hq ck rq hrq) (hs ck rs hrs)]
  · simp only [tombstone_mergeOlder, Lww.merge_assoc]

/-- Merging an older source in gives the older source exactly if it supersedes the newer one. -/
theorem mergeOlder_eq_right_iff (hp : p.DistinctColumns)
    (hq : q.DistinctColumns) : p.mergeOlder q = q ↔ q.Supersedes p := by
  constructor
  · intro h
    refine ⟨fun ck r hr => ?_, fun t ht => ?_⟩
    · have hck := getElem?_mergeOlder p q ck
      rw [h, hr] at hck
      cases hrq : q.rows[ck]? with
      | none => simp [hrq] at hck
      | some r' =>
        simp only [hrq, mergedRow, Option.some.injEq] at hck
        have hkey : r.clusteringKey = r'.clusteringKey :=
          (p.keyed ck r hr).trans (q.keyed ck r' hrq).symm
        exact ⟨r', rfl, (Row.mergeWith_eq_right_iff (hp ck r hr) (hq ck r' hrq) hkey).mp hck.symm⟩
    · have htomb := tombstone_mergeOlder p q
      rw [h, ht] at htomb
      cases htq : q.tombstone with
      | none => simp [htq] at htomb
      | some t' =>
        refine ⟨t', rfl, ?_⟩
        rw [htq, Lww.merge_some_some, Option.some.injEq, Lww.pick] at htomb
        split at htomb
        · next hlt => exact .inl hlt
        · exact .inr htomb
  · intro h
    refine ext_of_tombstone (fun ck => ?_) ?_
    · rw [getElem?_mergeOlder]
      cases hrp : p.rows[ck]? with
      | none => cases q.rows[ck]? <;> rfl
      | some r =>
        obtain ⟨r', hrq, hsup⟩ := h.rows ck r hrp
        have hkey : r.clusteringKey = r'.clusteringKey :=
          (p.keyed ck r hrp).trans (q.keyed ck r' hrq).symm
        simp only [hrq, mergedRow,
          (Row.mergeWith_eq_right_iff (hp ck r hrp) (hq ck r' hrq) hkey).mpr hsup]
    · rw [tombstone_mergeOlder]
      cases htp : p.tombstone with
      | none => rfl
      | some t =>
        obtain ⟨t', htq, hnewer⟩ := h.tombstone t htp
        rw [htq, Lww.merge_some_some, Lww.pick]
        rcases hnewer with hlt | rfl
        · rw [if_pos hlt]
        · rw [if_neg (lt_irrefl _)]

end PartitionData

end CassandraVerified.Storage
