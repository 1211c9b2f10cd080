import CassandraVerified.Storage.Proofs.ReplayProofs
import CassandraVerified.Storage.Proofs.StoreProofs

/-!
# Proofs: durability
-/

namespace CassandraVerified.Storage

open List

variable {w : Write} {r : Nat × Mutation}

theorem Cell.rank_le_mergeWith_left (c other : Cell) : c.rank ≤ (c.mergeWith other).rank := by
  rw [mergeWith_eq_pick]
  exact Lww.rank_le_pick_left rank c other

theorem Cell.rank_le_mergeWith_right (c other : Cell) : other.rank ≤ (c.mergeWith other).rank := by
  rw [mergeWith_eq_pick]
  exact Lww.rank_le_pick_right rank c other

namespace Row

theorem exists_mem_mergeCell {cells : List Cell} {c₀ : Cell} (h : c₀ ∈ cells) (c : Cell) :
    ∃ c' ∈ mergeCell cells c, c'.column = c₀.column ∧ c₀.rank ≤ c'.rank := by
  induction cells with
  | nil => exact absurd h (by simp)
  | cons d cells ih =>
    rw [mergeCell]
    split
    · next hcol =>
      rcases mem_cons.mp h with rfl | h
      · exact ⟨_, mem_cons_self, Cell.mergeWith_column hcol, Cell.rank_le_mergeWith_left _ _⟩
      · exact ⟨c₀, mem_cons_of_mem _ h, rfl, le_rfl⟩
    · rcases mem_cons.mp h with rfl | h
      · exact ⟨c₀, mem_cons_self, rfl, le_rfl⟩
      · obtain ⟨c', hc', hcol, hrank⟩ := ih h
        exact ⟨c', mem_cons_of_mem _ hc', hcol, hrank⟩

theorem exists_mem_mergeCell_self (cells : List Cell) (c : Cell) :
    ∃ c' ∈ mergeCell cells c, c'.column = c.column ∧ c.rank ≤ c'.rank := by
  induction cells with
  | nil => exact ⟨c, by simp [mergeCell], rfl, le_rfl⟩
  | cons d cells ih =>
    rw [mergeCell]
    split
    · next hcol =>
      exact ⟨_, mem_cons_self, (Cell.mergeWith_column hcol).trans hcol,
        Cell.rank_le_mergeWith_right _ _⟩
    · obtain ⟨c', hc', hcol, hrank⟩ := ih
      exact ⟨c', mem_cons_of_mem _ hc', hcol, hrank⟩

theorem exists_mem_foldl_mergeCell (cs : List Cell) {cells : List Cell} {c₀ : Cell}
    (h : c₀ ∈ cells ∨ c₀ ∈ cs) :
    ∃ c' ∈ cs.foldl mergeCell cells, c'.column = c₀.column ∧ c₀.rank ≤ c'.rank := by
  induction cs generalizing cells c₀ with
  | nil => exact ⟨c₀, h.resolve_right (by simp), rfl, le_rfl⟩
  | cons c cs ih =>
    have hfirst : ∀ {d : Cell}, d ∈ cells ∨ d = c →
        ∃ c' ∈ mergeCell cells c, c'.column = d.column ∧ d.rank ≤ c'.rank := by
      rintro d (hd | rfl)
      · exact exists_mem_mergeCell hd c
      · exact exists_mem_mergeCell_self cells d
    rw [foldl_cons]
    by_cases hlater : c₀ ∈ cs
    · exact ih (.inr hlater)
    · obtain ⟨c', hc', hcol, hrank⟩ :=
        hfirst (h.imp_right fun h => (mem_cons.mp h).resolve_right hlater)
      obtain ⟨c'', hc'', hcol', hrank'⟩ := ih (.inl hc')
      exact ⟨c'', hc'', hcol'.trans hcol, hrank.trans hrank'⟩

namespace Covers

theorem refl (r : Row) : r.Covers r := ⟨id, fun c hc => ⟨c, hc, rfl, le_rfl⟩⟩

theorem mergeWith_left {row r : Row} (h : row.Covers r) (other : Row) :
    (row.mergeWith other).Covers r where
  isTombstone ht := by simp [h.isTombstone ht]
  cells c hc := by
    obtain ⟨c', hc', hcol, hrank⟩ := h.cells c hc
    obtain ⟨c'', hc'', hcol', hrank'⟩ := exists_mem_foldl_mergeCell other.cells (.inl hc')
    exact ⟨c'', hc'', hcol'.trans hcol, hrank.trans hrank'⟩

theorem mergeWith_right (row other : Row) : (row.mergeWith other).Covers other where
  isTombstone ht := by simp [ht]
  cells c hc := exists_mem_foldl_mergeCell _ (.inr hc)

end Covers

end Row

namespace PartitionData

theorem Covers.apply {p : PartitionData} (h : p.Covers w) (w' : Write) : (p.apply w').Covers w := by
  cases w with
  | row r =>
    obtain ⟨row, hrow, hcov⟩ := h
    cases w' with
    | row r' =>
      rw [Covers, PartitionData.apply, getElem?_applyRow]
      split
      · exact ⟨_, by rw [hrow]; rfl, hcov.mergeWith_left r'⟩
      · exact ⟨row, hrow, hcov⟩
    | tombstone ts ldt =>
      refine ⟨row, ?_, hcov⟩
      rw [PartitionData.apply, rows_setTombstone, hrow]
  | tombstone ts ldt =>
    obtain ⟨t, ht, hle⟩ := h
    cases w' with
    | row r' => exact ⟨t, (tombstone_applyRow p r').trans ht, hle⟩
    | tombstone ts' ldt' =>
      refine ⟨_, (tombstone_setTombstone p ts' ldt').trans (by rw [ht]; rfl), hle.trans ?_⟩
      exact Lww.rank_le_pick_left Prod.fst t (ts', ldt')

theorem covers_apply (p : PartitionData) (w : Write) : (p.apply w).Covers w := by
  cases w with
  | row r =>
    rw [Covers, apply, getElem?_applyRow, if_pos rfl]
    cases hrow : p.rows[r.clusteringKey]? with
    | none => exact ⟨r, rfl, .refl r⟩
    | some row => exact ⟨_, rfl, .mergeWith_right row r⟩
  | tombstone ts ldt =>
    cases ht : p.tombstone with
    | none =>
      exact ⟨(ts, ldt), (tombstone_setTombstone p ts ldt).trans (by rw [ht]; rfl), le_rfl⟩
    | some t =>
      refine ⟨_, (tombstone_setTombstone p ts ldt).trans (by rw [ht]; rfl), ?_⟩
      exact Lww.rank_le_pick_right Prod.fst t (ts, ldt)

theorem covers_applyAll {p : PartitionData} {ws : List Write}
    (h : p.Covers w ∨ w ∈ ws) : (p.applyAll ws).Covers w := by
  induction ws generalizing p with
  | nil => exact h.resolve_right (by simp)
  | cons w' ws ih =>
    refine ih ?_
    rcases h with h | h
    · exact .inl (h.apply w')
    · rcases mem_cons.mp h with rfl | h
      · exact .inl (covers_apply p w)
      · exact .inr h

end PartitionData

theorem exists_covers_partitionOf {ws : List Write} (h : ws ≠ []) :
    ∃ p, partitionOf ws = some p ∧ ∀ w ∈ ws, p.Covers w := by
  cases ws with
  | nil => exact absurd rfl h
  | cons w ws => exact ⟨_, rfl, fun w' hw' => PartitionData.covers_applyAll (.inr hw')⟩

namespace LogInv

variable {ext : LogExternal} {log : CommitLog} {hist : List (Nat × Mutation)} {floor : Nat}

end LogInv

theorem mem_writesTo_ledger {ms : Logged} (hr : r ∈ ms)
    (hw : w ∈ r.2.writes) : w ∈ ms.ledger.writesTo r.2.partitionKey :=
  Ledger.mem_writesTo.mpr (mem_flatMap.mpr
    ⟨r.2, mem_map.mpr ⟨r, hr, rfl⟩, mem_map.mpr ⟨w, hw, rfl⟩⟩)

theorem SSTable.Records.contains {t : SSTable} {ms : Logged} (h : t.Records ms.ledger)
    (hr : r ∈ ms) (hname : t.keyspace ++ "." ++ t.table = r.2.cfName)
    (hne : r.2.writes ≠ []) : t.Contains r.2 := by
  obtain ⟨w, ws, hws⟩ := exists_cons_of_ne_nil hne
  have hmem := mem_writesTo_ledger hr (w := w) (by simp [hws])
  obtain ⟨p, hp, hcov⟩ := exists_covers_partitionOf (ne_nil_of_mem hmem)
  exact ⟨hname, p, (h _).trans hp, fun w hw => hcov w (mem_writesTo_ledger hr hw)⟩

/-- An outside world in which nothing fails. -/
def Io.quiet : Io where
  cdcUsed := 0
  writeFails := false
  listing names := names
  listing_perm _ := .refl _

end CassandraVerified.Storage
