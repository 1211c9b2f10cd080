import CassandraVerified.Storage.Convergence
import CassandraVerified.Storage.Proofs.LiveRowsProofs

/-!
# Proofs: replica convergence

`converges_iff_tieFree`: replicas converge on a set of writes exactly when it has no visible ties.
-/

namespace CassandraVerified.Storage

open List
open Lww (IsTop)
open PartitionData

variable {ops s : List Write}

variable {ck : Bytes} {col : String} {c : Cell} {t : Int64 × Int32} {now : Int32} {s' : List Write}

namespace Delivers

section

variable (h : Delivers s ops)

include h

theorem mem_cellsOf_iff (c : Cell) : c ∈ cellsOf s ck col ↔ c ∈ cellsOf ops ck col := by
  simp only [mem_cellsOf, h _]

theorem mem_tombstonesOf_iff (t : Int64 × Int32) : t ∈ tombstonesOf s ↔ t ∈ tombstonesOf ops := by
  simp only [mem_tombstonesOf, h _]

theorem touched_eq (ck : Bytes) : (viewOf s).touched ck = (viewOf ops).touched ck := by
  rw [Bool.eq_iff_iff, viewOf_touched, viewOf_touched]
  simp only [h _]

theorem marked_eq (ck : Bytes) : (viewOf s).marked ck = (viewOf ops).marked ck := by
  rw [Bool.eq_iff_iff, viewOf_marked, viewOf_marked]
  simp only [h _]

theorem isTop_cells_iff :
    IsTop Cell.rank (cellsOf s ck col) c ↔ IsTop Cell.rank (cellsOf ops ck col) c :=
  IsTop.congr Cell.rank h.mem_cellsOf_iff

theorem isTop_of_tombstone (ht : (viewOf s).tombstone = some t) :
    IsTop Prod.fst (tombstonesOf ops) t :=
  (IsTop.congr Prod.fst h.mem_tombstonesOf_iff).mp (Lww.isTop_of_mem_argmax Prod.fst ht)

theorem exists_tombstone (ht : IsTop Prod.fst (tombstonesOf ops) t) :
    ∃ t', (viewOf s).tombstone = some t' ∧ IsTop Prod.fst (tombstonesOf ops) t' ∧ t'.1 = t.1 := by
  obtain ⟨t', ht', -⟩ := Lww.exists_argmax_of_mem Prod.fst ((h.mem_tombstonesOf_iff t).mpr ht.1)
  have htop' := h.isTop_of_tombstone ht'
  exact ⟨t', ht', htop', le_antisymm (ht.2 t' htop'.1) (htop'.2 t ht.1)⟩

theorem exists_newer_iff {ts : Int64} :
    (∃ col c, (viewOf s).cell ck col = some c ∧ ts < c.timestamp) ↔ HasNewer ops ck ts := by
  constructor
  · rintro ⟨col, c, hc, hts⟩
    exact ⟨col, c, (h.mem_cellsOf_iff c).mp (argmax_mem hc), hts⟩
  · rintro ⟨col, c, hc, hts⟩
    have hmem : c ∈ cellsOf s ck col := (h.mem_cellsOf_iff c).mpr hc
    obtain ⟨d, hd, htop⟩ := Lww.exists_argmax_of_mem Cell.rank hmem
    exact ⟨col, d, hd, hts.trans_le (Cell.timestamp_le_of_rank_le (htop.2 c hmem))⟩

theorem rowShown_iff : (viewOf s).RowShown now ck ↔
      Kept ops ck ∧ ∀ t, (viewOf s).tombstone = some t → t.2 ≤ now → HasNewer ops ck t.1 := by
  simp [View.RowShown, h.touched_eq, h.marked_eq, h.exists_newer_iff, Kept, and_assoc]

end

end Delivers

theorem tombstone_of_isTop (ht : IsTop Prod.fst (tombstonesOf ops) t) :
    (viewOf (.tombstone t.1 t.2 :: ops)).tombstone = some t := by
  refine Lww.argmax_cons_of_isTop Prod.fst ⟨by simp, fun b hb => ?_⟩
  rcases mem_cons.mp hb with rfl | hb
  · exact le_rfl
  · exact ht.2 b hb

theorem cell_of_isTop {r : Row} (hd : r.DistinctColumns) (hc : c ∈ r.cells)
    (htop : IsTop Cell.rank (cellsOf ops r.clusteringKey c.column) c) :
    (viewOf (.row r :: ops)).cell r.clusteringKey c.column = some c := by
  have hcells : Write.cells r.clusteringKey c.column (.row r) = [c] := by
    have hcell : r.cell? c.column = some c := (Row.cell?_eq_some_iff hd).mpr ⟨hc, rfl⟩
    simp [Write.cells, hd.filter_eq, hcell]
  have hlist : cellsOf (.row r :: ops) r.clusteringKey c.column =
      c :: cellsOf ops r.clusteringKey c.column := by
    simp [cellsOf, hcells]
  show (cellsOf (.row r :: ops) r.clusteringKey c.column).argmax Cell.rank = some c
  rw [hlist]
  refine Lww.argmax_cons_of_isTop Cell.rank ⟨by simp, fun b hb => ?_⟩
  rcases mem_cons.mp hb with rfl | hb
  · exact le_rfl
  · exact htop.2 b hb

theorem delivers_cons {w : Write} (hw : w ∈ ops) : Delivers (w :: ops) ops := by
  intro w'
  simp only [mem_cons, or_iff_right_iff_imp]
  rintro rfl
  exact hw

theorem sameLiveRows_ofWrites (hd : ∀ w ∈ ops, w.DistinctColumns)
    (h : Delivers s ops) (h' : Delivers s' ops) :
    SameLiveRows (PartitionData.ofWrites s) (PartitionData.ofWrites s') now ↔
      ∀ ck, ((viewOf s).RowShown now ck ↔ (viewOf s').RowShown now ck) ∧
        ((viewOf s).RowShown now ck → ∀ col, (viewOf s).cell ck col = (viewOf s').cell ck col) := by
  have hs w hw := hd w ((h w).mp hw)
  have hs' w hw := hd w ((h' w).mp hw)
  rw [sameLiveRows_iff (distinctColumns_ofWrites hs)
    (distinctColumns_ofWrites hs'), view_ofWrites hs,
    view_ofWrites hs']

theorem TieFree.rowShown_iff (ht : TieFree ops) (h : Delivers s ops)
    (h' : Delivers s' ops) (hs : (viewOf s).RowShown now ck) :
    (viewOf s').RowShown now ck := by
  rw [h.rowShown_iff] at hs
  rw [h'.rowShown_iff]
  refine ⟨hs.1, fun t' ht' hnow => ?_⟩
  have htop' := h'.isTop_of_tombstone ht'
  obtain ⟨t, htomb, htop, hts⟩ := h.exists_tombstone htop'
  rcases ht.tombstones t t' htop htop' with heq | hall
  · exact hts ▸ hs.2 t htomb (heq ▸ hnow)
  · exact hts ▸ hall ck hs.1

theorem TieFree.cell_eq (ht : TieFree ops) (h : Delivers s ops)
    (h' : Delivers s' ops) (hs : (viewOf s).RowShown now ck) (col : String) :
    (viewOf s).cell ck col = (viewOf s').cell ck col := by
  have hshown := h.rowShown_iff.mp hs
  rcases ht.cells ck hshown.1 with hhidden | huniq
  · -- A row that is hidden at every time is not shown now.
    obtain ⟨t, htop, hmin, hnewer⟩ := hhidden
    obtain ⟨t', htomb, htop', hts⟩ := h.exists_tombstone htop
    rcases ht.tombstones t t' htop htop' with heq | hall
    · have hnow : t'.2 ≤ now := by
        rw [← heq, hmin]
        exact Int32.minValue_le now
      exact absurd (hts ▸ hshown.2 t' htomb hnow) hnewer
    · exact absurd (hall ck hshown.1) hnewer
  · refine Lww.argmax_congr Cell.rank ?_ fun c c' hc hc' => ?_
    · exact fun c => (h.mem_cellsOf_iff c).trans (h'.mem_cellsOf_iff c).symm
    · exact huniq col c c' (h.isTop_cells_iff.mp hc) (h.isTop_cells_iff.mp hc')

section

variable (hd : ∀ w ∈ ops, w.DistinctColumns)

include hd

theorem TieFree.converges (ht : TieFree ops) :
    Converges ops := by
  intro s s' h h' now
  rw [sameLiveRows_ofWrites hd h h']
  exact fun ck => ⟨⟨ht.rowShown_iff h h', ht.rowShown_iff h' h⟩, ht.cell_eq h h'⟩

theorem Converges.tombstones (hc : Converges ops) {t' : Int64 × Int32}
    (htop : IsTop Prod.fst (tombstonesOf ops) t) (htop' : IsTop Prod.fst (tombstonesOf ops) t')
    (hlt : t.2 < t'.2) (hk : Kept ops ck) :
    HasNewer ops ck t.1 := by
  have h := delivers_cons (mem_tombstonesOf.mp htop.1)
  have h' := delivers_cons (mem_tombstonesOf.mp htop'.1)
  have hsame := (sameLiveRows_ofWrites hd h h').mp (hc _ _ h h' t.2) ck
  have hshown : (viewOf (.tombstone t'.1 t'.2 :: ops)).RowShown t.2 ck := by
    rw [h'.rowShown_iff]
    refine ⟨hk, fun u hu hle => ?_⟩
    obtain rfl : t' = u := Option.some.inj ((tombstone_of_isTop htop').symm.trans hu)
    exact absurd hlt (not_lt.mpr hle)
  exact (h.rowShown_iff.mp (hsame.1.mpr hshown)).2 t (tombstone_of_isTop htop) le_rfl

/-- Two newest cells of one column, each delivered first, survive on two replicas. -/
theorem Converges.cells (hc : Converges ops) (hk : Kept ops ck)
    (hvisible : ¬ HiddenForever ops ck) {c' : Cell}
    (htop : IsTop Cell.rank (cellsOf ops ck col) c)
    (htop' : IsTop Cell.rank (cellsOf ops ck col) c') : c = c' := by
  obtain ⟨r, hr, rfl, hcr, rfl⟩ := mem_cellsOf.mp htop.1
  obtain ⟨r', hr', hck, hcr', hcol⟩ := mem_cellsOf.mp htop'.1
  have h := delivers_cons hr
  have h' := delivers_cons hr'
  -- At the smallest time only a tombstone that hides the row forever could hide it.
  have hshown : (viewOf (.row r :: ops)).RowShown Int32.minValue r.clusteringKey := by
    rw [h.rowShown_iff]
    refine ⟨hk, fun t ht hle => ?_⟩
    by_contra hnewer
    exact hvisible ⟨t, h.isTop_of_tombstone ht, le_antisymm hle (Int32.minValue_le _), hnewer⟩
  have hsame := (sameLiveRows_ofWrites hd h h').mp (hc _ _ h h' Int32.minValue) r.clusteringKey
  have hcell : (viewOf (.row r :: ops)).cell r.clusteringKey c.column = some c :=
    cell_of_isTop (hd _ hr) hcr htop
  have hcell' : (viewOf (.row r' :: ops)).cell r'.clusteringKey c'.column = some c' :=
    cell_of_isTop (hd _ hr') hcr' (hck ▸ hcol ▸ htop')
  rw [hck, hcol, ← hsame.2 hshown c.column, hcell] at hcell'
  exact Option.some.inj hcell'

theorem Converges.tieFree (hc : Converges ops) : TieFree ops where
  cells ck hk := or_iff_not_imp_left.mpr fun hvisible _ _ _ htop htop' =>
    hc.cells hd hk hvisible htop htop'
  tombstones t t' htop htop' := by
    have hts : t.1 = t'.1 := le_antisymm (htop'.2 t htop.1) (htop.2 t' htop'.1)
    rcases lt_trichotomy t.2 t'.2 with hlt | heq | hgt
    · exact Or.inr fun ck hk => hc.tombstones hd htop htop' hlt hk
    · exact Or.inl heq
    · exact Or.inr fun ck hk => hts ▸ hc.tombstones hd htop' htop hgt hk

end

/-- **Replica convergence.** Replicas that receive writes in any orders and with any repetitions
always show the same live rows exactly when the writes have no visible ties. -/
theorem converges_iff_tieFree (ops : List Write) (hd : ∀ w ∈ ops, w.DistinctColumns) :
    Converges ops ↔ TieFree ops :=
  ⟨fun hc => hc.tieFree hd, TieFree.converges hd⟩

/-- The row with the empty clustering key and `value` written to its column `v` at time 10. -/
def valueAtTen (value : UInt8) : Row where
  clusteringKey := []
  cells := [{ column := "v", value := some [value], timestamp := 10, ttl := 0
              localDeletionTime := none, isTombstone := false }]
  isTombstone := false
  localDeletionTime := none

/-- Two writes of different values with the same timestamp. -/
def twoValues : List Write := [.row (valueAtTen 1), .row (valueAtTen 2)]

theorem converges_iff_tieFree_twoValues :
    (∀ w ∈ twoValues, w.DistinctColumns) ∧ (Converges twoValues ↔ TieFree twoValues) :=
  ⟨by decide, converges_iff_tieFree twoValues (by decide)⟩

/-- Each replica keeps the value that reached it first. -/
theorem not_converges_twoValues : ¬ Converges twoValues := by
  intro h
  have hdelivers : Delivers twoValues.reverse twoValues := fun w => mem_reverse
  have hsame := h twoValues twoValues.reverse (fun _ => Iff.rfl) hdelivers 0
  have hfirst : (PartitionData.ofWrites twoValues).liveRows 0 = [valueAtTen 1] := by decide
  have hsecond : (PartitionData.ofWrites twoValues.reverse).liveRows 0 = [valueAtTen 2] := by decide
  rw [SameLiveRows, hfirst, hsecond, forall₂_cons] at hsame
  exact absurd (perm_singleton.mp hsame.1.cells) (by decide)

end CassandraVerified.Storage
