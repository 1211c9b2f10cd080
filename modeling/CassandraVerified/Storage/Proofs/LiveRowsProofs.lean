import CassandraVerified.Storage.Proofs.HistoryProofs

/-!
# Live rows and views

`live_rows` is a function of the view, as long as no row lists a column twice.
-/

namespace CassandraVerified.Storage

open Std (ExtTreeMap)
open PartitionData

variable {p : PartitionData} {now : Int32} {ck : Bytes} {r : Row}

namespace PartitionData

theorem liveRows_eq_values (p : PartitionData) (now : Int32) :
    p.liveRows now = TreeMap.values (p.rows.filter fun _ r => p.rowIsLive now r) := by
  simp [liveRows, rowList, TreeMap.values, List.filter_map, Function.comp_def]

theorem liveRow_eq_getElem? (p : PartitionData) (now : Int32) (ck : Bytes) :
    p.liveRow now ck = (p.rows.filter fun _ r => p.rowIsLive now r)[ck]? := by
  rw [ExtTreeMap.getElem?_filter']
  rfl

theorem liveRow_eq_some :
    p.liveRow now ck = some r ↔ p.rows[ck]? = some r ∧ p.rowIsLive now r = true := by
  simp [liveRow]

theorem clusteringKey_of_liveRow (h : p.liveRow now ck = some r) : r.clusteringKey = ck :=
  p.keyed ck r (liveRow_eq_some.mp h).1

theorem mem_liveRows : r ∈ p.liveRows now ↔ p.liveRow now r.clusteringKey = some r := by
  rw [liveRows_eq_values, TreeMap.mem_values]
  simp only [← liveRow_eq_getElem?]
  constructor
  · rintro ⟨ck, h⟩
    rwa [clusteringKey_of_liveRow h]
  · exact fun h => ⟨_, h⟩

theorem rowIsLive_iff (p : PartitionData) (now : Int32) (r : Row) : p.rowIsLive now r = true ↔
      r.isTombstone = false ∧
        ∀ ts ldt, p.tombstone = some (ts, ldt) → ldt ≤ now → ∃ c ∈ r.cells, ts < c.timestamp := by
  unfold rowIsLive
  cases r.isTombstone with
  | true => simp
  | false =>
    cases hp : p.tombstone with
    | none =>
      have hts : p.tombstoneTimestamp = none := tombstone_eq_none.mp hp
      simp [hts]
    | some t =>
      obtain ⟨ts, ldt⟩ := t
      obtain ⟨hts, hldt⟩ := tombstone_eq_some.mp hp
      by_cases hnow : ldt ≤ now
      · simp [hts, hldt, hnow]
      · simp [hts, hldt, hnow]

/-- A row of the partition is live exactly when the view shows it. -/
theorem rowIsLive_iff_rowShown (hp : p.DistinctColumns) (hr : p.rows[ck]? = some r) :
    p.rowIsLive now r = true ↔ p.view.RowShown now ck := by
  rw [rowIsLive_iff]
  have htouched : p.view.touched ck = true := by simp only [view, hr, Option.isSome_some]
  have hmarked : p.view.marked ck = r.isTombstone := by simp [view, hr]
  have hcell : ∀ col, p.view.cell ck col = r.cell? col := fun col => by simp [view, hr]
  simp only [View.RowShown, htouched, hmarked, hcell, true_and]
  refine and_congr_right fun _ => ?_
  have hnewer : ∀ ts : Int64, (∃ c ∈ r.cells, ts < c.timestamp) ↔
      ∃ col c, r.cell? col = some c ∧ ts < c.timestamp := by
    intro ts
    constructor
    · rintro ⟨c, hc, hts⟩
      exact ⟨c.column, c, (Row.cell?_eq_some_iff (hp ck r hr)).mpr ⟨hc, rfl⟩, hts⟩
    · rintro ⟨col, c, hc, hts⟩
      exact ⟨c, ((Row.cell?_eq_some_iff (hp ck r hr)).mp hc).1, hts⟩
  simp only [hnewer]
  exact Iff.rfl

theorem exists_liveRow_iff (hp : p.DistinctColumns) :
    (∃ r, p.liveRow now ck = some r) ↔ p.view.RowShown now ck := by
  constructor
  · rintro ⟨r, hr⟩
    obtain ⟨hrow, hlive⟩ := liveRow_eq_some.mp hr
    exact (rowIsLive_iff_rowShown hp hrow).mp hlive
  · intro hshown
    obtain ⟨r, hr⟩ := Option.isSome_iff_exists.mp hshown.1
    exact ⟨r, liveRow_eq_some.mpr ⟨hr, (rowIsLive_iff_rowShown hp hr).mpr hshown⟩⟩

theorem cell?_of_liveRow (h : p.liveRow now ck = some r) (col : String) :
    p.view.cell ck col = r.cell? col := by
  simp [view, (liveRow_eq_some.mp h).1]

end PartitionData

theorem Row.perm_cells_iff {r' : Row} (h : r.DistinctColumns) (h' : r'.DistinctColumns) :
    r.cells.Perm r'.cells ↔ ∀ col, r.cell? col = r'.cell? col := by
  rw [List.perm_ext_iff_of_nodup h.of_map h'.of_map]
  constructor
  · intro hmem col
    ext c
    rw [Row.cell?_eq_some_iff h, Row.cell?_eq_some_iff h', hmem]
  · intro hcell c
    have hc := hcell c.column
    constructor
    · intro hmem
      rw [(Row.cell?_eq_some_iff h).mpr ⟨hmem, rfl⟩, eq_comm] at hc
      exact ((Row.cell?_eq_some_iff h').mp hc).1
    · intro hmem
      rw [(Row.cell?_eq_some_iff h').mpr ⟨hmem, rfl⟩] at hc
      exact ((Row.cell?_eq_some_iff h).mp hc).1

theorem sameLiveRows_iff_rel {q : PartitionData} : SameLiveRows p q now ↔
      ∀ ck, Option.Rel Row.SameContent (p.liveRow now ck) (q.liveRow now ck) := by
  constructor
  · intro h ck
    -- A live row on one side has its counterpart in the other list, under the same key.
    have hpq : ∀ r, p.liveRow now ck = some r →
        ∃ r', q.liveRow now ck = some r' ∧ Row.SameContent r r' := by
      intro r hr
      have hkey := clusteringKey_of_liveRow hr
      have hmem : r ∈ p.liveRows now := mem_liveRows.mpr (hkey ▸ hr)
      obtain ⟨r', hr', hsame⟩ := TreeMap.exists_of_forall₂ h hmem
      rw [mem_liveRows, ← hsame.clusteringKey, hkey] at hr'
      exact ⟨r', hr', hsame⟩
    have hqp : ∀ r', q.liveRow now ck = some r' → ∃ r, p.liveRow now ck = some r := by
      intro r' hr'
      have hkey := clusteringKey_of_liveRow hr'
      have hmem : r' ∈ q.liveRows now := mem_liveRows.mpr (hkey ▸ hr')
      obtain ⟨r, hr, hsame⟩ := TreeMap.exists_of_forall₂ h.flip hmem
      rw [mem_liveRows, hsame.clusteringKey, hkey] at hr
      exact ⟨r, hr⟩
    cases hp : p.liveRow now ck with
    | some r =>
      obtain ⟨r', hr', hsame⟩ := hpq r hp
      exact hr' ▸ Option.Rel.some hsame
    | none =>
      cases hq : q.liveRow now ck with
      | none => exact Option.Rel.none
      | some r' =>
        obtain ⟨r, hr⟩ := hqp r' hq
        exact absurd hr (by simp [hp])
  · intro h
    unfold SameLiveRows
    rw [liveRows_eq_values, liveRows_eq_values]
    refine TreeMap.forall₂_values fun ck => ?_
    rw [← liveRow_eq_getElem?, ← liveRow_eq_getElem?]
    exact h ck

/-- Two partitions have the same live rows exactly when their views show the same rows with the
same cells. -/
theorem sameLiveRows_iff {q : PartitionData} (hp : p.DistinctColumns) (hq : q.DistinctColumns) :
    SameLiveRows p q now ↔ ∀ ck, (p.view.RowShown now ck ↔ q.view.RowShown now ck) ∧
        (p.view.RowShown now ck → ∀ col, p.view.cell ck col = q.view.cell ck col) := by
  rw [sameLiveRows_iff_rel]
  refine forall_congr' fun ck => ?_
  rw [← exists_liveRow_iff hp, ← exists_liveRow_iff hq]
  cases hpr : p.liveRow now ck with
  | none =>
    cases hqr : q.liveRow now ck with
    | none => simp
    | some r' =>
      simp only [reduceCtorEq, exists_false, Option.some.injEq, exists_eq', iff_true, false_and]
      exact ⟨nofun, False.elim⟩
  | some r =>
    cases hqr : q.liveRow now ck with
    | none =>
      simp only [reduceCtorEq, exists_false, Option.some.injEq, exists_eq', iff_false, not_true,
        false_and]
      nofun
    | some r' =>
      have hr := liveRow_eq_some.mp hpr
      have hr' := liveRow_eq_some.mp hqr
      have hperm := Row.perm_cells_iff (hp ck r hr.1) (hq ck r' hr'.1)
      simp only [Option.some.injEq, exists_eq', true_and, forall_const,
        PartitionData.cell?_of_liveRow hpr, PartitionData.cell?_of_liveRow hqr, ← hperm]
      constructor
      · rintro (hsame | _)
        exact hsame.cells
      · intro hcells
        refine Option.Rel.some ⟨?_, ?_, hcells⟩
        · rw [p.keyed ck r hr.1, q.keyed ck r' hr'.1]
        · rw [((rowIsLive_iff p now r).mp hr.2).1,
            ((rowIsLive_iff q now r').mp hr'.2).1]

end CassandraVerified.Storage
