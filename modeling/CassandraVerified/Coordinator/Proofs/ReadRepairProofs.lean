import CassandraVerified.Coordinator.ReadRepair
import CassandraVerified.Read.Proofs.ResolverProofs
import CassandraVerified.Storage.Proofs.DataProofs

/-!
# Proofs: what read repair leaves out

The payload is decoded to the rows of the merged partition, without marks and with values that never
expire. Merged into a stale replica it brings every column to the newest timestamp; what the replica
shows then differs exactly by what the payload has left out.
-/

namespace CassandraVerified.Coordinator

open List Storage
open Wire (beBytes Reader)
open Wire.Reader (Reads)
open PartitionData

variable {c : Cell} {r : Row} {p : PartitionData}

/-- A cell of the mutation that a replica decodes. -/
def repairedCell (c : Cell) : CellMutation := decodedCell c.column (c.value.getD []) c.timestamp

def repairedRow (r : Row) : MutationRow where
  clusteringKey := r.clusteringKey
  cells := r.cells.map repairedCell
  isTombstone := false

theorem reads_repairU32 (field : String) {n : Nat} (h : n < 2 ^ 32) :
    Reads (readRepairU32 field) (beBytes 4 n) n :=
  Reads.be _ h

theorem reads_repairI64 (field : String) (i : Int64) :
    Reads (readRepairI64 field) (writeI64 i) i := by
  have hlt : i.toUInt64.toNat < 256 ^ 8 := i.toUInt64.toNat_lt
  have hread : Reads (readRepairI64 field) (writeI64 i) (UInt64.ofNat i.toUInt64.toNat).toInt64 :=
    (Reads.be _ hlt).bind_pure
  simpa using hread

theorem reads_lenPrefixedBytes (field : String) {bs : Bytes} (h : bs.length < 2 ^ 32) :
    Reads (readLenPrefixedBytes field) (writeBytes bs) bs := by
  refine (reads_repairU32 field h).bind fun rest => ?_
  exact Reads.take (RepairPayloadError.lengthExceeds field bs.length (bs ++ rest).length) bs rest

theorem reads_utf8Field (field : String) {name : String} (h : (nameBytes name).length < 2 ^ 32) :
    Reads (readUtf8Field field) (writeBytes (nameBytes name)) name := by
  intro rest
  rw [readUtf8Field, Reader.run_bind_of_ok (reads_lenPrefixedBytes field h rest),
    fromUTF8?_nameBytes]
  rfl

theorem reads_repairCell (hname : (nameBytes c.column).length < 2 ^ 32)
    (hvalue : (c.value.getD []).length < 2 ^ 32) :
    Reads readRepairCell (serializeRepairCell c) (repairedCell c) := by
  rw [serializeRepairCell, append_assoc]
  exact (reads_utf8Field _ hname).bind ((reads_lenPrefixedBytes _ hvalue).bind
    (reads_repairI64 _ _).bind_pure)

theorem reads_repairRow (hkey : r.clusteringKey.length < 2 ^ 32)
    (hcount : r.cells.length < 2 ^ 32) (hcells : ∀ c ∈ r.cells,
      (nameBytes c.column).length < 2 ^ 32 ∧ (c.value.getD []).length < 2 ^ 32) :
    Reads readRepairRow (serializeRepairRow r) (repairedRow r) := by
  have htimes : Reads (Reader.times readRepairCell r.cells.length)
      (r.cells.flatMap serializeRepairCell) (r.cells.map repairedCell) :=
    Reads.times_map fun c hc => reads_repairCell (hcells c hc).1 (hcells c hc).2
  rw [serializeRepairRow, append_assoc]
  exact (reads_lenPrefixedBytes _ hkey).bind ((reads_repairU32 _ hcount).bind htimes.bind_pure)

variable {repair : ReadRepairMutation}

/-- A payload whose lengths fit decodes to the rows of the partition. -/
theorem decode_serializeRepairPayload (h : PayloadFits repair) :
    decodeStagedRepairPayload (serializeRepairPayload repair) =
      .ok (.simple repair.keyspace repair.table repair.partitionKey
        (repair.data.rowList.map repairedRow)
        (mutationTimestamp (repair.data.rowList.map repairedRow))) := by
  have htimes : Reads (Reader.times readRepairRow repair.data.rowList.length)
      (repair.data.rowList.flatMap serializeRepairRow) (repair.data.rowList.map repairedRow) :=
    Reads.times_map fun r hr => reads_repairRow (h.rows r hr).1 (h.rows r hr).2 (h.cells r hr)
  have hreads : Reads readRepairRequest (serializeRepairPayload repair)
      (.simple repair.keyspace repair.table repair.partitionKey
        (repair.data.rowList.map repairedRow)
        (mutationTimestamp (repair.data.rowList.map repairedRow))) := by
    rw [serializeRepairPayload]
    simp only [append_assoc]
    exact (reads_utf8Field _ h.keyspace).bind ((reads_utf8Field _ h.table).bind
      ((reads_lenPrefixedBytes _ h.partitionKey).bind ((reads_repairU32 _ h.rowCount).bind
        htimes.bind_pure)))
  have hrun := hreads []
  rw [append_nil] at hrun
  rw [decodeStagedRepairPayload, hrun]
  rfl

/-- A cell as the replica stores it: a value that never expires, or a tombstone if there is no
value. -/
def storedCell (c : Cell) : Cell := toStorageCell (repairedCell c)

def storedRow (r : Row) : Row := toStorageRow (repairedRow r)

/-- The operations that the repair applies. -/
def repairWrites (m : PartitionData) : List Storage.Write :=
  m.rowList.map fun r => .row (storedRow r)

@[simp] theorem storedCell_timestamp (c : Cell) : (storedCell c).timestamp = c.timestamp := rfl

@[simp] theorem storedCell_isTombstone (c : Cell) :
    (storedCell c).isTombstone = (c.value.getD []).isEmpty := rfl

theorem isLiveAt_storedCell (c : Cell) (now : Int32) :
    (storedCell c).isLiveAt now = !(c.value.getD []).isEmpty := by
  have httl : (storedCell c).ttl = 0 := rfl
  cases hv : (c.value.getD []).isEmpty <;> simp [Cell.isLiveAt, hv, httl]

theorem storedCell_eq_self_iff (h : c.value.getD [] ≠ []) : storedCell c = c ↔ PlainValue c := by
  obtain ⟨column, value, timestamp, ttl, ldt, tombstone⟩ := c
  obtain ⟨v, rfl⟩ : ∃ v, value = some v := by
    cases value with
    | none => exact absurd rfl h
    | some v => exact ⟨v, rfl⟩
  have hv : v.isEmpty = false := by simpa using h
  simp only [storedCell, repairedCell, toStorageCell, decodedCell, Option.getD_some, hv,
    Bool.false_eq_true, if_false, Cell.mk.injEq, true_and]
  constructor
  · rintro ⟨rfl, rfl, rfl⟩
    exact ⟨rfl, rfl, rfl⟩
  · rintro ⟨rfl, rfl, rfl⟩
    exact ⟨rfl, rfl, rfl⟩

theorem writes_repair (m : PartitionData) (keyspace table : String) (pk : Bytes) (ts : Int64) :
    (toStorageMutation (.simple keyspace table pk (m.rowList.map repairedRow) ts)).writes =
      repairWrites m := by
  simp [toStorageMutation, CoordinatedMutation.simple, Mutation.writes, Mutation.rowWrites,
    Mutation.staticRow?, repairWrites, storedRow, repairedRow, Function.comp_def]

theorem repairReplica_of_fits (h : PayloadFits repair) (s : PartitionData) :
    repairReplica repair s = .ok (s.applyAll (repairWrites repair.data)) := by
  rw [repairReplica, decode_serializeRepairPayload h]
  change Except.ok _ = _
  rw [writes_repair]

section Views

variable {m s : PartitionData} {ck : Bytes} {col : String} {now : Int32}

theorem mem_rowList : r ∈ p.rowList ↔ p.rows[r.clusteringKey]? = some r := by
  rw [rowList, TreeMap.mem_values]
  constructor
  · rintro ⟨ck, hck⟩
    rwa [p.keyed ck r hck]
  · exact fun h => ⟨_, h⟩

theorem distinctColumns_repairWrites (hm : m.DistinctColumns) :
    ∀ w ∈ repairWrites m, w.DistinctColumns := by
  intro w hw
  obtain ⟨r, hr, rfl⟩ := mem_map.mp hw
  have hcolumns : (storedRow r).cells.map Cell.column = r.cells.map Cell.column := by
    simp [storedRow, toStorageRow, repairedRow, Function.comp_def, toStorageCell, repairedCell,
      decodedCell]
  change ((storedRow r).cells.map Cell.column).Nodup
  rw [hcolumns]
  exact hm _ r (mem_rowList.mp hr)

theorem row_mem_repairWrites {row : Row} :
    .row row ∈ repairWrites m ↔ ∃ r, m.rows[row.clusteringKey]? = some r ∧ storedRow r = row := by
  simp only [repairWrites, mem_map, Write.row.injEq, mem_rowList]
  constructor
  · rintro ⟨r, hr, rfl⟩
    exact ⟨r, hr, rfl⟩
  · rintro ⟨r, hr, rfl⟩
    exact ⟨r, hr, rfl⟩

theorem touched_repairWrites : (viewOf (repairWrites m)).touched ck = m.view.touched ck := by
  rw [Bool.eq_iff_iff, viewOf_touched, view, Option.isSome_iff_exists]
  constructor
  · rintro ⟨row, hrow, rfl⟩
    obtain ⟨r, hr, -⟩ := row_mem_repairWrites.mp hrow
    exact ⟨r, hr⟩
  · rintro ⟨r, hr⟩
    obtain rfl := m.keyed ck r hr
    exact ⟨storedRow r, row_mem_repairWrites.mpr ⟨r, hr, rfl⟩, rfl⟩

theorem marked_repairWrites : (viewOf (repairWrites m)).marked ck = false := by
  rw [Bool.eq_false_iff, Ne, viewOf_marked]
  rintro ⟨row, hrow, -, hmarked⟩
  obtain ⟨r, -, rfl⟩ := row_mem_repairWrites.mp hrow
  simp [storedRow, toStorageRow, repairedRow] at hmarked

theorem tombstone_repairWrites : (viewOf (repairWrites m)).tombstone = none := by
  have hnone : tombstonesOf (repairWrites m) = [] := by
    simp [tombstonesOf, repairWrites, Function.comp_def, Write.tombstone?]
  rw [viewOf, hnone]
  rfl

theorem mem_cellsOf_repairWrites (hm : m.DistinctColumns) {x : Cell} :
    x ∈ cellsOf (repairWrites m) ck col ↔ ∃ c, m.view.cell ck col = some c ∧ storedCell c = x := by
  have hcell : ∀ c, m.view.cell ck col = some c ↔
      ∃ r, m.rows[ck]? = some r ∧ c ∈ r.cells ∧ c.column = col := by
    intro c
    rw [view, Option.bind_eq_some_iff]
    exact exists_congr fun r => and_congr_right fun hr => Row.cell?_eq_some_iff (hm ck r hr)
  simp only [mem_cellsOf, hcell, row_mem_repairWrites]
  constructor
  · rintro ⟨_, ⟨r, hr, rfl⟩, rfl, hx, rfl⟩
    obtain ⟨c, hc, rfl⟩ : ∃ c ∈ r.cells, storedCell c = x := by
      simpa [storedRow, toStorageRow, repairedRow, storedCell] using hx
    exact ⟨c, ⟨r, hr, hc, rfl⟩, rfl⟩
  · rintro ⟨c, ⟨r, hr, hc, rfl⟩, rfl⟩
    obtain rfl := m.keyed ck r hr
    refine ⟨storedRow r, ⟨r, hr, rfl⟩, rfl, ?_, rfl⟩
    simpa [storedRow, toStorageRow, repairedRow] using ⟨c, hc, rfl⟩

theorem cell_repairWrites (hm : m.DistinctColumns) :
    (viewOf (repairWrites m)).cell ck col = (m.view.cell ck col).map storedCell := by
  change (cellsOf (repairWrites m) ck col).argmax Cell.rank = _
  cases hcell : m.view.cell ck col with
  | none =>
    have hnil : cellsOf (repairWrites m) ck col = [] := by
      rw [eq_nil_iff_forall_not_mem]
      intro x hx
      obtain ⟨c, hc, -⟩ := (mem_cellsOf_repairWrites hm).mp hx
      rw [hcell] at hc
      cases hc
    rw [hnil]
    rfl
  | some c =>
    have honly : ∀ x, x ∈ cellsOf (repairWrites m) ck col ↔ storedCell c = x := by
      intro x
      rw [mem_cellsOf_repairWrites hm, hcell]
      simp
    have htop : Lww.IsTop Cell.rank (cellsOf (repairWrites m) ck col) (storedCell c) :=
      ⟨(honly _).mpr rfl, fun x hx => (honly x).mp hx ▸ le_rfl⟩
    exact Lww.argmax_eq_some_of_isTop _ htop fun x hx => ((honly x).mp hx.1).symm

theorem view_repaired (hm : m.DistinctColumns) :
    (s.applyAll (repairWrites m)).view = s.view.merge (viewOf (repairWrites m)) :=
  s.view_applyAll (distinctColumns_repairWrites hm)

theorem view_touched_eq_true :
    p.view.touched ck = true ↔ ∃ r, p.rows[ck]? = some r := Option.isSome_iff_exists

theorem view_marked_eq_true :
    p.view.marked ck = true ↔ ∃ r, p.rows[ck]? = some r ∧ r.isTombstone = true := by
  simp [view, Option.any_eq_true]

section

variable (hm : m.DistinctColumns)

include hm

theorem touched_repaired (hstale : Stale s m) :
    (s.applyAll (repairWrites m)).view.touched ck = m.view.touched ck := by
  rw [view_repaired hm, View.merge_touched, touched_repairWrites]
  cases htouched : s.view.touched ck with
  | false => rfl
  | true =>
    obtain ⟨r, hr⟩ := view_touched_eq_true.mp htouched
    obtain ⟨r', hr', -⟩ := hstale.rows ck r hr
    exact (view_touched_eq_true.mpr ⟨r', hr'⟩).symm

theorem marked_repaired : (s.applyAll (repairWrites m)).view.marked ck = s.view.marked ck := by
  rw [view_repaired hm, View.merge_marked, marked_repairWrites, Bool.or_false]

theorem tombstone_repaired : (s.applyAll (repairWrites m)).view.tombstone = s.view.tombstone := by
  rw [view_repaired hm, View.merge_tombstone, tombstone_repairWrites, Lww.merge_none_right]

theorem Stale.cell (hstale : Stale s m) (h : s.view.cell ck col = some c) :
    ∃ c', m.view.cell ck col = some c' ∧ (c = c' ∨ c.timestamp < c'.timestamp) := by
  obtain ⟨r, hr, hc⟩ := Option.bind_eq_some_iff.mp h
  obtain ⟨r', hr', -, hcells⟩ := hstale.rows ck r hr
  have hmem : c ∈ r.cells := mem_of_find?_eq_some hc
  have hcol : c.column = col := by simpa using List.find?_some hc
  obtain ⟨c', hc', hcol', hage⟩ := hcells c hmem
  refine ⟨c', Option.bind_eq_some_iff.mpr ⟨r', hr', ?_⟩, hage⟩
  exact (Row.cell?_eq_some_iff (hm ck r' hr')).mpr ⟨hc', hcol'.trans hcol⟩

/-- The replica keeps a cell that it has, unless that is a value of length 0; every other cell is
there as the payload has it. -/
theorem cell_repaired (hstale : Stale s m) (h : m.view.cell ck col = some c) :
    (s.applyAll (repairWrites m)).view.cell ck col =
      if s.view.cell ck col = some c ∧ (c.isTombstone = true ∨ c.value.getD [] ≠ []) then some c
      else some (storedCell c) := by
  have hmerge : (s.applyAll (repairWrites m)).view.cell ck col =
      Lww.merge Cell.rank (s.view.cell ck col) (some (storedCell c)) := by
    rw [view_repaired hm, View.merge_cell, cell_repairWrites hm, h, Option.map_some]
  rw [hmerge]
  cases hcell : s.view.cell ck col with
  | none => simp
  | some d =>
    obtain ⟨c', hc', hage⟩ := hstale.cell hm hcell
    obtain rfl : c = c' := Option.some_inj.mp (h.symm.trans hc')
    rw [Lww.merge_some_some, Lww.pick]
    rcases hage with rfl | hlt
    · have hrank : d.rank < (storedCell d).rank ↔
          ¬ (d.isTombstone = true ∨ d.value.getD [] ≠ []) := by
        rw [Cell.rank_lt_iff]
        simp
      by_cases hkeep : d.isTombstone = true ∨ d.value.getD [] ≠ []
      · rw [if_neg (fun hlt => hrank.mp hlt hkeep), if_pos ⟨rfl, hkeep⟩]
      · rw [if_pos (hrank.mpr hkeep), if_neg (fun hand => hkeep hand.2)]
    · have hrank : d.rank < (storedCell c).rank := (Cell.rank_lt_iff _ _).mpr (.inl hlt)
      have hne : some d ≠ some c := fun heq => by
        rw [Option.some_inj.mp heq] at hlt
        exact absurd hlt (lt_irrefl _)
      rw [if_pos hrank, if_neg (fun hand => hne hand.1)]

theorem cell_repaired_none (hstale : Stale s m) (h : m.view.cell ck col = none)
    : (s.applyAll (repairWrites m)).view.cell ck col = none := by
  rw [view_repaired hm, View.merge_cell, cell_repairWrites hm, h, Option.map_none,
    Lww.merge_none_right]
  cases hcell : s.view.cell ck col with
  | none => rfl
  | some d =>
    obtain ⟨c', hc', -⟩ := hstale.cell hm hcell
    rw [h] at hc'
    cases hc'

theorem exists_newer_iff_hasNewerCell {ts : Int64} :
    (∃ col c, m.view.cell ck col = some c ∧ ts < c.timestamp) ↔ HasNewerCell m ck ts := by
  constructor
  · rintro ⟨col, c, hcell, hlt⟩
    obtain ⟨r, hr, hc⟩ := Option.bind_eq_some_iff.mp hcell
    exact ⟨r, hr, c, mem_of_find?_eq_some hc, hlt⟩
  · rintro ⟨r, hr, c, hc, hlt⟩
    refine ⟨c.column, c, Option.bind_eq_some_iff.mpr ⟨r, hr, ?_⟩, hlt⟩
    exact (Row.cell?_eq_some_iff (hm ck r hr)).mpr ⟨hc, rfl⟩

theorem exists_newer_repaired_iff (hstale : Stale s m) {ts : Int64} :
    (∃ col c, (s.applyAll (repairWrites m)).view.cell ck col = some c ∧ ts < c.timestamp) ↔
      HasNewerCell m ck ts := by
  rw [← exists_newer_iff_hasNewerCell hm]
  refine exists_congr fun col => ?_
  cases hcell : m.view.cell ck col with
  | none => simp [cell_repaired_none hm hstale hcell]
  | some c =>
    rw [cell_repaired hm hstale hcell]
    split <;> simp

end

theorem forall_covers_iff :
    (∀ ts ldt, p.tombstone = some (ts, ldt) → ldt ≤ now → HasNewerCell m ck ts) ↔
      ∀ ldt, Covers p m ck ldt → now < ldt := by
  constructor
  · rintro h ldt ⟨ts, htomb, hnewer⟩
    by_contra hle
    exact hnewer (h ts ldt htomb (not_lt.mp hle))
  · intro h ts ldt htomb hle
    by_contra hnewer
    exact absurd (h ldt ⟨ts, htomb, hnewer⟩) (not_lt.mpr hle)

theorem rowShown_merged_iff (hm : m.DistinctColumns) : m.view.RowShown now ck ↔
      m.view.touched ck = true ∧ m.view.marked ck = false ∧
        ∀ ldt, Covers m m ck ldt → now < ldt := by
  rw [View.RowShown]
  refine and_congr_right fun _ => and_congr_right fun _ => ?_
  simp only [exists_newer_iff_hasNewerCell hm]
  exact forall_covers_iff

theorem rowShown_repaired_iff (hm : m.DistinctColumns) (hstale : Stale s m) :
    (s.applyAll (repairWrites m)).view.RowShown now ck ↔
      m.view.touched ck = true ∧ s.view.marked ck = false ∧
        ∀ ldt, Covers s m ck ldt → now < ldt := by
  rw [View.RowShown, touched_repaired hm hstale, marked_repaired hm, tombstone_repaired hm]
  refine and_congr_right fun _ => and_congr_right fun _ => ?_
  simp only [exists_newer_repaired_iff hm hstale]
  exact forall_covers_iff

theorem mem_liveCells_iff (hp : p.DistinctColumns) : c ∈ p.liveCells now ck ↔
      p.view.RowShown now ck ∧ p.view.cell ck c.column = some c ∧ c.isLiveAt now = true := by
  rw [Read.mem_liveCells_view hp, View.RowShown]
  constructor
  · rintro ⟨hmarked, hopen, hcell, hlive⟩
    obtain ⟨r, hr, -⟩ := Option.bind_eq_some_iff.mp hcell
    exact ⟨⟨view_touched_eq_true.mpr ⟨r, hr⟩, hmarked, fun ts ldt ht => hopen (ts, ldt) ht⟩,
      hcell, hlive⟩
  · rintro ⟨⟨-, hmarked, hopen⟩, hcell, hlive⟩
    exact ⟨hmarked, fun t ht => hopen t.1 t.2 ht, hcell, hlive⟩

theorem liveRow_isSome_iff (hp : p.DistinctColumns) :
    (p.liveRow now ck).isSome = true ↔ p.view.RowShown now ck := by
  rw [Option.isSome_iff_exists, exists_liveRow_iff hp]

/-- Partitions show the same if they show the same rows, and the same live cells in them. -/
theorem sameShown_iff {q : PartitionData} (hp : p.DistinctColumns) (hq : q.DistinctColumns) :
    SameShown p q now ↔ ∀ ck, (p.view.RowShown now ck ↔ q.view.RowShown now ck) ∧
        (q.view.RowShown now ck → ∀ col c, c.isLiveAt now = true →
          (p.view.cell ck col = some c ↔ q.view.cell ck col = some c)) := by
  have hcolumn : ∀ {x : PartitionData} {ck col c}, x.view.cell ck col = some c →
      c.column = col := by
    intro x ck col c hcell
    obtain ⟨r, -, hc⟩ := Option.bind_eq_some_iff.mp hcell
    simpa using List.find?_some hc
  refine forall_congr' fun ck => ?_
  rw [Bool.eq_iff_iff, liveRow_isSome_iff hp, liveRow_isSome_iff hq]
  refine and_congr_right fun hshown => ?_
  simp only [mem_liveCells_iff hp, mem_liveCells_iff hq, hshown]
  constructor
  · intro h hq col c hlive
    constructor
    · intro hcell
      obtain rfl := hcolumn hcell
      exact ((h c).mp ⟨hq, hcell, hlive⟩).2.1
    · intro hcell
      obtain rfl := hcolumn hcell
      exact ((h c).mpr ⟨hq, hcell, hlive⟩).2.1
  · intro h c
    refine and_congr_right fun hq => ?_
    constructor
    · rintro ⟨hcell, hlive⟩
      exact ⟨(h hq _ c hlive).mp hcell, hlive⟩
    · rintro ⟨hcell, hlive⟩
      exact ⟨(h hq _ c hlive).mpr hcell, hlive⟩

theorem Covers.unique {ldt ldt' : Int32} (h : Covers p m ck ldt) (h' : Covers p m ck ldt') :
    ldt = ldt' := by
  obtain ⟨ts, htomb, -⟩ := h
  obtain ⟨ts', htomb', -⟩ := h'
  rw [htomb] at htomb'
  exact (Prod.mk.inj (Option.some_inj.mp htomb')).2

theorem Stale.covers (hstale : Stale s m) {ldt : Int32} (h : Covers s m ck ldt) :
    ∃ ldt', Covers m m ck ldt' := by
  obtain ⟨ts, htomb, hnewer⟩ := h
  obtain ⟨⟨ts', ldt'⟩, htomb', hage⟩ := hstale.tombstone _ htomb
  refine ⟨ldt', ts', htomb', ?_⟩
  rintro ⟨r, hr, c, hc, hlt⟩
  have hle : ts ≤ ts' := by
    rcases hage with heq | hlt
    · exact (Prod.mk.inj heq).1.le
    · exact le_of_lt hlt
  exact hnewer ⟨r, hr, c, hc, lt_of_le_of_lt hle hlt⟩

theorem Stale.marked (hstale : Stale s m) (h : m.view.marked ck = false) :
    s.view.marked ck = false := by
  rw [Bool.eq_false_iff] at h ⊢
  intro hmarked
  obtain ⟨r, hr, htomb⟩ := view_marked_eq_true.mp hmarked
  obtain ⟨r', hr', htomb', -⟩ := hstale.rows ck r hr
  exact h (view_marked_eq_true.mpr ⟨r', hr', htomb' htomb⟩)

theorem view_marked_eq (hr : p.rows[ck]? = some r) : p.view.marked ck = r.isTombstone := by
  simp [view, hr]

/-- The replica shows the same rows if the marks and the partition tombstone do not matter. -/
theorem rowsShown_iff (hm : m.DistinctColumns) (hstale : Stale s m) :
    (∀ now ck, (s.applyAll (repairWrites m)).view.RowShown now ck ↔ m.view.RowShown now ck) ↔
      (∀ (ck : Bytes) (r : Row), m.rows[ck]? = some r → r.isTombstone = true →
        (∃ r', s.rows[ck]? = some r' ∧ r'.isTombstone = true) ∨ Covers s m ck Int32.minValue) ∧
      ∀ (ck : Bytes) (r : Row), m.rows[ck]? = some r → r.isTombstone = false →
        ∀ ldt, Covers m m ck ldt → Covers s m ck ldt := by
  simp only [rowShown_repaired_iff hm hstale, rowShown_merged_iff hm]
  constructor
  · intro h
    constructor
    · intro ck r hr htomb
      have hmarked : m.view.marked ck = true := (view_marked_eq hr).trans htomb
      have hhidden := mt (h Int32.minValue ck).mp (by simp [hmarked])
      simp only [view_touched_eq_true.mpr ⟨r, hr⟩, true_and, not_and_or, Bool.not_eq_false,
        not_forall, not_lt] at hhidden
      rcases hhidden with hmarked | ⟨ldt, hcovers, hle⟩
      · exact .inl (view_marked_eq_true.mp hmarked)
      · rw [le_antisymm hle (Int32.minValue_le ldt)] at hcovers
        exact .inr hcovers
    · intro ck r hr htomb ldt hcovers
      have hmarked : m.view.marked ck = false := (view_marked_eq hr).trans htomb
      have htouched := view_touched_eq_true.mpr ⟨r, hr⟩
      -- the row goes at `ldt`, so that it goes at the replica by then, and not before
      have hhidden := mt (h ldt ck).mp fun hshown => absurd (hshown.2.2 ldt hcovers) (lt_irrefl _)
      simp only [htouched, hstale.marked hmarked, true_and, not_forall, not_lt] at hhidden
      obtain ⟨ldt', hcovers', hle⟩ := hhidden
      rcases lt_or_eq_of_le hle with hlt | rfl
      · have hshown := (h ldt' ck).mpr ⟨htouched, hmarked, fun x hx => hx.unique hcovers ▸ hlt⟩
        exact absurd (hshown.2.2 ldt' hcovers') (lt_irrefl _)
      · exact hcovers'
  · rintro ⟨hrows, hpartition⟩ now ck
    refine and_congr_right fun htouched => ?_
    obtain ⟨r, hr⟩ := view_touched_eq_true.mp htouched
    cases htomb : r.isTombstone with
    | true =>
      refine iff_of_false ?_ (by simp [view_marked_eq hr, htomb])
      rcases hrows ck r hr htomb with hmarked | hcovers
      · simp [view_marked_eq_true.mpr hmarked]
      · exact fun hshown => absurd (hshown.2 _ hcovers) (not_lt.mpr (Int32.minValue_le now))
    | false =>
      have hmarked : m.view.marked ck = false := (view_marked_eq hr).trans htomb
      simp only [hmarked, hstale.marked hmarked, true_and]
      refine forall_congr' fun ldt => imp_congr_left ⟨fun hcovers => ?_, hpartition ck r hr htomb ldt⟩
      obtain ⟨ldt', hcovers'⟩ := hstale.covers hcovers
      exact hcovers.unique (hpartition ck r hr htomb ldt' hcovers') ▸ hcovers'

/-- The live version of one column is the same if what the payload has of it is all there is. -/
theorem liveCell_repaired_iff (hm : m.DistinctColumns) (hs : s.DistinctColumns)
    (hstale : Stale s m) (hcell : m.view.cell ck col = some c) :
    (∀ d, d.isLiveAt now = true →
        ((s.applyAll (repairWrites m)).view.cell ck col = some d ↔ some c = some d)) ↔
      if c.value.getD [] = [] then c.isLiveAt now = false
      else (∃ r', s.rows[ck]? = some r' ∧ c ∈ r'.cells) ∨ PlainValue c := by
  have hcol : c.column = col := by
    obtain ⟨r, -, hc⟩ := Option.bind_eq_some_iff.mp hcell
    simpa using List.find?_some hc
  have hheld : s.view.cell ck col = some c ↔ ∃ r', s.rows[ck]? = some r' ∧ c ∈ r'.cells := by
    rw [view, Option.bind_eq_some_iff]
    refine exists_congr fun r => and_congr_right fun hr => ?_
    rw [Row.cell?_eq_some_iff (hs ck r hr), and_iff_left hcol]
  rw [cell_repaired hm hstale hcell, ← hheld]
  by_cases hempty : c.value.getD [] = []
  · -- the stored cell is a tombstone
    have hdead : ∀ now, (storedCell c).isLiveAt now = false := fun now => by
      rw [isLiveAt_storedCell, hempty]
      rfl
    simp only [hempty, ne_eq, not_true_eq_false, or_false, if_true]
    constructor
    · intro h
      by_contra hlive
      rw [Bool.not_eq_false] at hlive
      have hvalue : c.isTombstone = false := by
        by_contra htomb
        simp [Cell.isLiveAt, htomb] at hlive
      have hsame := (h c hlive).mpr rfl
      rw [if_neg (by simp [hvalue]), Option.some_inj] at hsame
      rw [← hsame, hdead] at hlive
      cases hlive
    · intro hlive d hd
      refine iff_of_false ?_ fun heq => ?_
      · split
        · exact fun heq => by rw [← Option.some_inj.mp heq, hlive] at hd; cases hd
        · exact fun heq => by rw [← Option.some_inj.mp heq, hdead] at hd; cases hd
      · rw [← Option.some_inj.mp heq, hlive] at hd
        cases hd
  · have hlive : ∀ now, (storedCell c).isLiveAt now = true := fun now => by
      rw [isLiveAt_storedCell]
      simpa using hempty
    simp only [hempty, ne_eq, not_false_eq_true, or_true, and_true, if_false]
    by_cases hkeep : s.view.cell ck col = some c
    · simp [hkeep]
    · simp only [hkeep, if_false, false_or, Option.some_inj]
      rw [← storedCell_eq_self_iff hempty]
      constructor
      · intro h
        exact ((h _ (hlive now)).mp rfl).symm
      · intro heq d _
        rw [heq]

theorem sameShown_repaired_iff (hm : m.DistinctColumns) (hs : s.DistinctColumns)
    (hstale : Stale s m) :
    (∀ now, SameShown (s.applyAll (repairWrites m)) m now) ↔ NothingLeftOut m s := by
  simp only [sameShown_iff (hs.applyAll (distinctColumns_repairWrites hm)) hm]
  have hrow : ∀ {ck r now}, m.liveRow now ck = some r → m.view.RowShown now ck := fun h =>
    (exists_liveRow_iff hm).mp ⟨_, h⟩
  constructor
  · intro h
    obtain ⟨hrows, hpartition⟩ := (rowsShown_iff hm hstale).mp fun now ck => (h now ck).1
    refine ⟨hrows, hpartition, fun ck r now hlive c hc => ?_⟩
    have hr := (liveRow_eq_some.mp hlive).1
    have hcell : m.view.cell ck c.column = some c := by
      rw [cell?_of_liveRow hlive]
      exact (Row.cell?_eq_some_iff (hm ck r hr)).mpr ⟨hc, rfl⟩
    refine (liveCell_repaired_iff hm hs hstale hcell).mp fun d hd => ?_
    rw [← hcell]
    exact (h now ck).2 (hrow hlive) c.column d hd
  · intro h now ck
    refine ⟨(rowsShown_iff hm hstale).mpr ⟨h.rows, h.partition⟩ now ck, fun hshown col d hd => ?_⟩
    obtain ⟨r, hlive⟩ := (exists_liveRow_iff hm).mpr hshown
    cases hcell : m.view.cell ck col with
    | none => simp [cell_repaired_none hm hstale hcell]
    | some c =>
      have hc : c ∈ r.cells := by
        rw [cell?_of_liveRow hlive] at hcell
        exact mem_of_find?_eq_some hcell
      exact (liveCell_repaired_iff hm hs hstale hcell).mpr (h.cells ck r now hlive c hc) d hd

end Views

/-- Read repair makes a stale replica show the merged partition if and only if what the payload
leaves out is at the replica already or cannot be seen. -/
theorem repairs_iff (repair : ReadRepairMutation) (s : PartitionData)
    (hm : repair.data.DistinctColumns) (hs : s.DistinctColumns) (hstale : Stale s repair.data)
    (hfits : PayloadFits repair) :
    Repairs repair s ↔ NothingLeftOut repair.data s := by
  rw [← sameShown_repaired_iff hm hs hstale, Repairs, repairReplica_of_fits hfits]
  simp

def oneRow (cell : Cell) (deleted : Bool) : PartitionData :=
  .ofWrites [.row ⟨[1], [cell], deleted, none⟩]

def repairOf (data : PartitionData) : ReadRepairMutation := ⟨"ks", "t", [0], data⟩

theorem getElem?_oneRow {cell : Cell} {deleted : Bool} {ck : Bytes} :
    (oneRow cell deleted).rows[ck]? = some r ↔ ck = [1] ∧ r = ⟨[1], [cell], deleted, none⟩ := by
  change (empty.applyRow _).rows[ck]? = some r ↔ _
  rw [getElem?_applyRow, rows_empty]
  grind [mergedRow]

theorem distinctColumns_oneRow (cell : Cell) (deleted : Bool) :
    (oneRow cell deleted).DistinctColumns :=
  distinctColumns_ofWrites (by simp [Write.DistinctColumns, Row.DistinctColumns])

theorem stale_oneRow {c c' : Cell} {deleted : Bool} (hcol : c'.column = c.column)
    (hage : c = c' ∨ c.timestamp < c'.timestamp) : Stale (oneRow c false) (oneRow c' deleted) where
  rows ck r hr := by
    obtain ⟨rfl, rfl⟩ := getElem?_oneRow.mp hr
    exact ⟨_, getElem?_oneRow.mpr ⟨rfl, rfl⟩, by simp, by simpa using ⟨hcol, hage⟩⟩
  tombstone t ht := by cases ht

/-- The column `v` with a value of one byte. -/
def plainCell (value : UInt8) (timestamp : Int64) : Cell :=
  ⟨"v", some [value], timestamp, 0, none, false⟩

/-- A replica with an older value gets the newer one. -/
theorem repairs_olderValue : Stale (oneRow (plainCell 6 5) false) (oneRow (plainCell 7 10) false) ∧
      Repairs (repairOf (oneRow (plainCell 7 10) false)) (oneRow (plainCell 6 5) false) := by
  have hstale := @stale_oneRow (plainCell 6 5) (plainCell 7 10) false rfl (.inr (by decide))
  have hfits : PayloadFits (repairOf (oneRow (plainCell 7 10) false)) :=
    ⟨by decide, by decide, by decide, by decide, by decide, by decide⟩
  refine ⟨hstale, (repairs_iff _ _ (distinctColumns_oneRow _ _) (distinctColumns_oneRow _ _) hstale
    hfits).mpr ⟨?_, ?_, ?_⟩⟩
  · intro ck r hr htomb
    obtain ⟨-, rfl⟩ := getElem?_oneRow.mp hr
    cases htomb
  · rintro ck r - - ldt ⟨ts, htomb, -⟩
    cases htomb
  · intro ck r now hlive c hc
    obtain ⟨-, rfl⟩ := getElem?_oneRow.mp (liveRow_eq_some.mp hlive).1
    rw [mem_singleton.mp hc, if_neg (by decide)]
    exact .inr ⟨rfl, rfl, rfl⟩

/-- A row that is deleted in the merged partition is not deleted at the replica. -/
theorem not_repairs_deletedRow :
    Stale (oneRow (plainCell 7 5) false) (oneRow (plainCell 7 5) true) ∧
      ¬ Repairs (repairOf (oneRow (plainCell 7 5) true)) (oneRow (plainCell 7 5) false) := by
  refine ⟨stale_oneRow rfl (.inl rfl), ?_⟩
  rintro ⟨p, hp, hsame⟩
  rw [repairReplica_of_fits ⟨by decide, by decide, by decide, by decide, by decide, by decide⟩] at hp
  cases hp
  have hrow := (hsame 100 [1]).1
  revert hrow
  decide +kernel

end CassandraVerified.Coordinator
