import CassandraVerified.Read.Resolver
import CassandraVerified.Read.Proofs.ResponseProofs
import CassandraVerified.Storage.Proofs.ConvergenceProofs

/-!
# Proofs: resolving filtered answers

The merge of the answers and the merge of the replicas are described column by column. They differ
in which cells take part, since a replica leaves out of its answer the tombstones and expired cells
that would win over an older cell of another replica.
-/

namespace CassandraVerified.Storage.PartitionData

theorem setTombstone_applyRow (p : PartitionData) (ts : Int64) (ldt : Int32) (r : Row) :
    (p.setTombstone ts ldt).applyRow r = (p.applyRow r).setTombstone ts ldt := by
  refine ext_of_tombstone (fun ck => ?_) ?_
  · rw [getElem?_applyRow, rows_setTombstone, rows_setTombstone, getElem?_applyRow]
  · rw [tombstone_applyRow, tombstone_setTombstone, tombstone_setTombstone, tombstone_applyRow]

theorem setTombstone_foldl_applyRow (p : PartitionData) (ts : Int64) (ldt : Int32)
    (rows : List Row) :
    rows.foldl applyRow (p.setTombstone ts ldt) = (rows.foldl applyRow p).setTombstone ts ldt := by
  induction rows generalizing p with
  | nil => rfl
  | cons r rows ih => rw [List.foldl_cons, setTombstone_applyRow, ih, List.foldl_cons]

theorem mergePartition_eq_applyAll (entry p : PartitionData) :
    entry.mergePartition p = entry.applyAll p.writes := by
  rw [writes, applyAll_append, applyAll_map_row]
  unfold mergePartition tombstone
  cases p.tombstoneTimestamp with
  | none => rfl
  | some ts =>
    cases p.tombstoneLocalDeletionTime with
    | none => rfl
    | some ldt => exact setTombstone_foldl_applyRow entry ts ldt p.rowList

@[simp] theorem mergePartition_empty (entry : PartitionData) : entry.mergePartition .empty = entry :=
  rfl

end CassandraVerified.Storage.PartitionData

namespace CassandraVerified.Read

open Storage PartitionResult PartitionData List DataResolver

variable {replicas : List PartitionData} {now : Int32} {ck : Bytes} {c : Cell}
  {ps : List PartitionData} {r : Row} {q p : PartitionData}

theorem mergePartitionData_map_some (ps : List PartitionData) :
    mergePartitionData (ps.map some) = .ofWrites (ps.flatMap writes) := by
  have hfold (q : PartitionData) : ps.foldl .mergePartition q = q.applyAll (ps.flatMap writes) := by
    induction ps generalizing q with
    | nil => rfl
    | cons p ps ih =>
      rw [foldl_cons, ih, mergePartition_eq_applyAll, flatMap_cons, applyAll_append]
  have hsome : (ps.map some).reduceOption = ps := by simp [reduceOption]
  rw [mergePartitionData, hsome, hfold]
  rfl

theorem mergePartitionData_answers (pk : Bytes) (ps : List PartitionData) (now : Int32)
    (tracker : TombstoneTracker) :
    mergePartitionData (ps.map fun p => (fromPartitionData pk p now tracker).1.data) =
      mergePartitionData (ps.map fun p => some (livePart p now)) := by
  unfold mergePartitionData
  generalize empty = q
  induction ps generalizing q with
  | nil => rfl
  | cons p ps ih =>
    rw [map_cons, map_cons, reduceOption_cons_of_some, foldl_cons]
    cases hdata : (fromPartitionData pk p now tracker).1.data with
    | none =>
      rw [reduceOption_cons_of_none, livePart_eq_empty hdata, mergePartition_empty]
      exact ih q
    | some live =>
      rw [reduceOption_cons_of_some, foldl_cons, fromPartitionData_data hdata]
      exact ih _

theorem tombstonesOf_flatMap_writes (ps : List PartitionData) :
    tombstonesOf (ps.flatMap writes) = ps.filterMap tombstone := by
  induction ps with
  | nil => rfl
  | cons p ps ih =>
    have hp : tombstonesOf p.writes = p.tombstone.toList := by
      simp [tombstonesOf, writes, Function.comp_def, Write.tombstone?]
    rw [flatMap_cons, tombstonesOf, filterMap_append, ← tombstonesOf, ← tombstonesOf, ih, hp]
    cases ht : p.tombstone <;> simp [ht]

theorem row_mem_flatMap_writes : Write.row r ∈ ps.flatMap writes ↔
      ∃ p ∈ ps, p.rows[r.clusteringKey]? = some r := by
  simp only [mem_flatMap, writes, mem_append, mem_map, reduceCtorEq,
    and_false, exists_false, or_false, Write.row.injEq, exists_eq_right]
  refine exists_congr fun p => and_congr_right fun _ => ?_
  constructor
  · intro hr
    obtain ⟨k, hk⟩ := TreeMap.mem_values.mp hr
    rw [p.keyed k r hk, hk]
  · intro hr
    exact TreeMap.mem_values.mpr ⟨_, hr⟩

theorem mem_cellsOf_flatMap_writes {col : String} : c ∈ cellsOf (ps.flatMap writes) ck col ↔
      ∃ p ∈ ps, c ∈ rowCells p ck ∧ c.column = col := by
  rw [mem_cellsOf]
  simp only [row_mem_flatMap_writes]
  constructor
  · rintro ⟨r, ⟨p, hp, hr⟩, rfl, hc, hcol⟩
    exact ⟨p, hp, by simpa [rowCells, hr] using hc, hcol⟩
  · rintro ⟨p, hp, hc, hcol⟩
    cases hr : p.rows[ck]? with
    | none => simp [rowCells, hr] at hc
    | some r =>
      have hck := p.keyed ck r hr
      exact ⟨r, ⟨p, hp, hck ▸ hr⟩, hck, by simpa [rowCells, hr] using hc, hcol⟩

theorem viewOf_marked_eq_false :
    (viewOf (ps.flatMap writes)).marked ck = false ↔ Unmarked ps ck := by
  rw [← Bool.not_eq_true, viewOf_marked]
  simp only [row_mem_flatMap_writes]
  constructor
  · intro h p hp r hr
    have hck := p.keyed ck r hr
    exact Bool.not_eq_true _ ▸ fun hmark => h ⟨r, ⟨p, hp, hck ▸ hr⟩, hck, hmark⟩
  · rintro h ⟨r, ⟨p, hp, hr⟩, rfl, hmark⟩
    exact absurd (h p hp r hr) (by simp [hmark])

theorem viewOf_cell_eq_some (ht : DistinctTimestamps replicas) :
    (viewOf (replicas.flatMap writes)).cell ck c.column = some c ↔
      IsNewest (rowCells · ck) replicas c := by
  constructor
  · intro h
    obtain ⟨hmem, htop⟩ := Lww.isTop_of_mem_argmax _ h
    obtain ⟨p, hp, hc, -⟩ := mem_cellsOf_flatMap_writes.mp hmem
    refine ⟨⟨p, hp, hc⟩, fun p' hp' c' hc' hcol => ?_⟩
    exact Cell.timestamp_le_of_rank_le
      (htop c' (mem_cellsOf_flatMap_writes.mpr ⟨p', hp', hc', hcol⟩))
  · rintro ⟨⟨p, hp, hc⟩, hnewest⟩
    have htop : Lww.IsTop Cell.rank (cellsOf (replicas.flatMap writes) ck c.column) c := by
      refine ⟨mem_cellsOf_flatMap_writes.mpr ⟨p, hp, hc, rfl⟩, fun d hd => ?_⟩
      obtain ⟨p', hp', hd', hcol⟩ := mem_cellsOf_flatMap_writes.mp hd
      rcases lt_or_eq_of_le (hnewest p' hp' d hd' hcol) with hlt | heq
      · exact (Cell.rank_le_iff d c).mpr (.inl hlt)
      · rw [ht p' hp' p hp ck d hd' c hc hcol heq]
    refine Lww.argmax_eq_some_of_isTop _ htop fun d hd => ?_
    obtain ⟨p', hp', hd', hcol⟩ := mem_cellsOf_flatMap_writes.mp hd.1
    exact ht p' hp' p hp ck d hd' c hc hcol (le_antisymm
      (hnewest p' hp' d hd' hcol) (Cell.timestamp_le_of_rank_le (hd.2 c htop.1)))

theorem exists_newer_iff {ts : Int64} :
    (∃ col c, (viewOf (replicas.flatMap writes)).cell ck col = some c ∧ ts < c.timestamp) ↔
      ∃ p ∈ replicas, ∃ c ∈ rowCells p ck, ts < c.timestamp := by
  have hdel : Delivers (replicas.flatMap writes) (replicas.flatMap writes) := fun _ => Iff.rfl
  rw [hdel.exists_newer_iff]
  constructor
  · rintro ⟨col, c, hc, hlt⟩
    obtain ⟨p, hp, hc, -⟩ := mem_cellsOf_flatMap_writes.mp hc
    exact ⟨p, hp, c, hc, hlt⟩
  · rintro ⟨p, hp, c, hc, hlt⟩
    exact ⟨c.column, c, mem_cellsOf_flatMap_writes.mpr ⟨p, hp, hc, rfl⟩, hlt⟩

section

variable (hq : q.DistinctColumns)

include hq

theorem view_cell_eq_some :
    q.view.cell ck c.column = some c ↔ ∃ r, q.rows[ck]? = some r ∧ c ∈ r.cells := by
  constructor
  · intro h
    obtain ⟨r, hr, hc⟩ := Option.bind_eq_some_iff.mp h
    exact ⟨r, hr, ((Row.cell?_eq_some_iff (hq ck r hr)).mp hc).1⟩
  · rintro ⟨r, hr, hc⟩
    exact Option.bind_eq_some_iff.mpr ⟨r, hr, (Row.cell?_eq_some_iff (hq ck r hr)).mpr ⟨hc, rfl⟩⟩

theorem exists_view_cell_iff (hr : q.rows[ck]? = some r) {ts : Int64} :
    (∃ col c, q.view.cell ck col = some c ∧ ts < c.timestamp) ↔
      ∃ c ∈ r.cells, ts < c.timestamp := by
  constructor
  · rintro ⟨col, c, hc, hlt⟩
    obtain ⟨r', hr', hc⟩ := Option.bind_eq_some_iff.mp hc
    obtain rfl : r = r' := Option.some.inj (hr.symm.trans hr')
    exact ⟨c, ((Row.cell?_eq_some_iff (hq ck r hr)).mp hc).1, hlt⟩
  · rintro ⟨c, hc, hlt⟩
    exact ⟨c.column, c, (view_cell_eq_some hq).mpr ⟨r, hr, hc⟩, hlt⟩

attribute [local simp] view

theorem mem_answeredCells_view : c ∈ answeredCells q now ck ↔
      q.view.marked ck = false ∧
        (∀ t, q.tombstone = some t → ∃ col c', q.view.cell ck col = some c' ∧ t.1 < c'.timestamp) ∧
        q.view.cell ck c.column = some c ∧ c.isLiveAt now = true := by
  rw [mem_answeredCells, view_cell_eq_some hq]
  constructor
  · rintro ⟨r, hr, hmark, htomb, hc, hlive⟩
    refine ⟨by simp [hr, hmark], fun t ht => ?_, ⟨r, hr, hc⟩, hlive⟩
    exact (exists_view_cell_iff hq hr).mpr (htomb t ht)
  · rintro ⟨hmark, htomb, ⟨r, hr, hc⟩, hlive⟩
    refine ⟨r, hr, by simpa [hr] using hmark, fun t ht => ?_, hc, hlive⟩
    exact (exists_view_cell_iff hq hr).mp (htomb t ht)

theorem mem_liveCells_view : c ∈ q.liveCells now ck ↔
      q.view.marked ck = false ∧ (∀ t, q.tombstone = some t → t.2 ≤ now →
          ∃ col c', q.view.cell ck col = some c' ∧ t.1 < c'.timestamp) ∧
        q.view.cell ck c.column = some c ∧ c.isLiveAt now = true := by
  rw [view_cell_eq_some hq]
  constructor
  · intro h
    obtain ⟨hc, hlive⟩ := mem_filter.mp h
    cases hrow : q.liveRow now ck with
    | none => simp [hrow] at hc
    | some r =>
      rw [hrow] at hc
      obtain ⟨hr, hrlive⟩ := liveRow_eq_some.mp hrow
      obtain ⟨hmark, htomb⟩ := (q.rowIsLive_iff now r).mp hrlive
      refine ⟨by simp [hr, hmark], fun t ht hle => ?_, ⟨r, hr, hc⟩, hlive⟩
      exact (exists_view_cell_iff hq hr).mpr (htomb t.1 t.2 ht hle)
  · rintro ⟨hmark, htomb, ⟨r, hr, hc⟩, hlive⟩
    have hrlive : q.rowIsLive now r = true := by
      refine (q.rowIsLive_iff now r).mpr ⟨by simpa [hr] using hmark, ?_⟩
      intro ts ldt ht hle
      exact (exists_view_cell_iff hq hr).mp (htomb (ts, ldt) ht hle)
    have hrow : q.liveRow now ck = some r := by simp [liveRow, hr, hrlive]
    rw [PartitionData.liveCells, hrow]
    exact mem_filter.mpr ⟨hc, hlive⟩

end

section

variable (hd : ∀ p ∈ replicas, p.DistinctColumns)

include hd

theorem distinctColumns_writes :
    ∀ w ∈ replicas.flatMap writes, w.DistinctColumns := by
  intro w hw
  obtain ⟨p, hp, hw⟩ := mem_flatMap.mp hw
  exact (hd p hp).writes w hw

theorem view_merged :
    (mergePartitionData (replicas.map some)).view = viewOf (replicas.flatMap writes) := by
  rw [mergePartitionData_map_some]
  exact view_ofWrites (distinctColumns_writes hd)

theorem distinctColumns_merged :
    (mergePartitionData (replicas.map some)).DistinctColumns := by
  rw [mergePartitionData_map_some]
  exact distinctColumns_ofWrites (distinctColumns_writes hd)

theorem tombstone_merged :
    (mergePartitionData (replicas.map some)).tombstone = newestTombstone replicas := by
  have h := congrArg View.tombstone (view_merged hd)
  rw [newestTombstone, ← tombstonesOf_flatMap_writes]
  exact h

theorem mem_liveCells_merged (ht : DistinctTimestamps replicas) :
    c ∈ (mergePartitionData (replicas.map some)).liveCells now ck ↔
      Unmarked replicas ck ∧ RowOpen replicas now ck ∧ IsNewest (rowCells · ck) replicas c ∧
        c.isLiveAt now = true := by
  rw [mem_liveCells_view (distinctColumns_merged hd), view_merged hd, tombstone_merged hd,
    viewOf_marked_eq_false, viewOf_cell_eq_some ht]
  simp only [exists_newer_iff]
  rfl

end

theorem rowCells_livePart (p : PartitionData) (now : Int32) (ck : Bytes) :
    rowCells (livePart p now) ck = answeredCells p now ck := by
  rw [rowCells, getElem?_livePart]
  rfl

theorem mem_rowCells_of_answered (h : c ∈ answeredCells p now ck) : c ∈ rowCells p ck := by
  obtain ⟨r, hr, -, -, hc, -⟩ := mem_answeredCells.mp h
  simpa [rowCells, hr] using hc

theorem distinctColumns_livePart (hp : p.DistinctColumns) (now : Int32) :
    (livePart p now).DistinctColumns := by
  intro ck r hr
  rw [getElem?_livePart] at hr
  obtain ⟨r', hr', hkept⟩ := Option.bind_eq_some_iff.mp hr
  obtain ⟨-, -, -, rfl⟩ := keptRow_eq_some.mp hkept
  exact (hp ck r' hr').sublist (filter_sublist.map _)

theorem unmarked_liveParts (replicas : List PartitionData) (now : Int32) (ck : Bytes) :
    Unmarked (replicas.map (livePart · now)) ck := by
  intro q hq r hr
  obtain ⟨p, -, rfl⟩ := mem_map.mp hq
  rw [getElem?_livePart] at hr
  obtain ⟨r', -, hkept⟩ := Option.bind_eq_some_iff.mp hr
  obtain ⟨-, -, -, rfl⟩ := keptRow_eq_some.mp hkept
  rfl

theorem DistinctTimestamps.liveParts (ht : DistinctTimestamps replicas) (now : Int32) :
    DistinctTimestamps (replicas.map (livePart · now)) := by
  intro q hq q' hq' ck c hc c' hc'
  obtain ⟨p, hp, rfl⟩ := mem_map.mp hq
  obtain ⟨p', hp', rfl⟩ := mem_map.mp hq'
  rw [rowCells_livePart] at hc hc'
  exact ht p hp p' hp' ck c (mem_rowCells_of_answered hc) c' (mem_rowCells_of_answered hc')

theorem isNewest_liveParts : IsNewest (rowCells · ck) (replicas.map (livePart · now)) c ↔
      IsNewest (answeredCells · now ck) replicas c := by
  simp [IsNewest, rowCells_livePart]

theorem newestTombstone_liveParts :
    newestTombstone (replicas.map (livePart · now)) = newestTombstone replicas := by
  unfold newestTombstone
  rw [filterMap_map]
  rfl

/-- The cells that a second filter leaves of the merged answers. -/
theorem mem_answeredCells_merged (hd : ∀ p ∈ replicas, p.DistinctColumns)
    (ht : DistinctTimestamps replicas) :
    c ∈ answeredCells (mergePartitionData (replicas.map fun p => some (livePart p now))) now ck ↔
      (∀ t, newestTombstone replicas = some t →
        ∃ p ∈ replicas, ∃ c ∈ answeredCells p now ck, t.1 < c.timestamp) ∧
      IsNewest (answeredCells · now ck) replicas c := by
  have hmap : replicas.map (fun p => some (livePart p now)) =
      (replicas.map (livePart · now)).map some := by simp
  have hlives : ∀ p ∈ replicas.map (livePart · now), p.DistinctColumns := by
    intro q hq
    obtain ⟨p, hp, rfl⟩ := mem_map.mp hq
    exact distinctColumns_livePart (hd p hp) now
  rw [hmap, mem_answeredCells_view (distinctColumns_merged hlives), view_merged hlives,
    tombstone_merged hlives, viewOf_marked_eq_false, viewOf_cell_eq_some (ht.liveParts now),
    isNewest_liveParts, newestTombstone_liveParts]
  simp only [exists_newer_iff, mem_map, exists_exists_and_eq_and, rowCells_livePart]
  constructor
  · rintro ⟨-, htomb, hnewest, -⟩
    exact ⟨htomb, hnewest⟩
  · rintro ⟨htomb, hnewest⟩
    obtain ⟨p, hp, hc⟩ := hnewest.1
    obtain ⟨-, -, -, -, -, hlive⟩ := mem_answeredCells.mp hc
    exact ⟨unmarked_liveParts replicas now ck, htomb, hnewest, hlive⟩

theorem foldl_addResponse (pk : Bytes) (now : Int32) (r : DataResolver) :
    replicas.foldl (fun r p => r.addResponse (.fromPartition pk p now)) r =
      { r with responses := r.responses ++ replicas.map (DataResponse.fromPartition pk · now) } := by
  induction replicas generalizing r with
  | nil => simp
  | cons p replicas ih =>
    rw [foldl_cons, ih]
    simp [addResponse]

theorem partitionVersions_answers (pk : Bytes) (now : Int32) (replicas : List PartitionData) :
    partitionVersions (replicas.map (DataResponse.fromPartition pk · now)) pk =
      replicas.map fun p => (fromPartitionData pk p now (.new {})).1.data := by
  simp only [partitionVersions, map_map]
  refine map_congr_left fun p _ => ?_
  simp [DataResponse.fromPartition, fromPartitionData_fst]

theorem allKeys_answers (pk : Bytes) (now : Int32) (h : replicas ≠ []) :
    allKeys (replicas.map (DataResponse.fromPartition pk · now)) = [pk] := by
  have hpks : ∀ r ∈ (replicas.map (DataResponse.fromPartition pk · now)).flatMap
      DataResponse.partitions, r.partitionKey = pk := by
    intro r hr
    simp only [mem_flatMap, mem_map, exists_exists_and_eq_and] at hr
    obtain ⟨p, -, hr⟩ := hr
    rw [mem_singleton.mp hr]
  have hstay : ∀ results : List PartitionResult, (∀ r ∈ results, r.partitionKey = pk) →
      results.foldl (fun keys r =>
        if keys.contains r.partitionKey then keys else keys ++ [r.partitionKey]) [pk] = [pk] := by
    intro results
    induction results with
    | nil => simp
    | cons r results ih =>
      intro hkeys
      rw [foldl_cons, hkeys r (by simp), if_pos (by simp)]
      exact ih fun r hr => hkeys r (by simp [hr])
  cases replicas with
  | nil => exact absurd rfl h
  | cons p replicas =>
    unfold allKeys
    rw [map_cons, flatMap_cons] at hpks ⊢
    rw [DataResponse.fromPartition] at hpks ⊢
    rw [singleton_append, foldl_cons, if_neg (by simp), nil_append, hpks _ (by simp)]
    exact hstay _ fun r hr => hpks r (by simp [hr])

theorem cells_fromPartition (pk : Bytes) (p : PartitionData) (now : Int32) (ck : Bytes) :
    (DataResponse.fromPartition pk p now).cells ck = answeredCells p now ck := by
  unfold DataResponse.cells DataResponse.fromPartition
  rw [flatMap_singleton]
  exact elim_fromPartitionData pk p now (.new {}) ck

/-- Two answers or more are merged and filtered again. -/
theorem cells_coordinatedRead_of_two (hasher : Hasher) (thresholds : TombstoneThresholds)
    (pk : Bytes) (p p' : PartitionData) (rest : List PartitionData) (now : Int32) (ck : Bytes) :
    (coordinatedRead hasher thresholds pk (p :: p' :: rest) now).cells ck = answeredCells
        (mergePartitionData ((p :: p' :: rest).map fun p => some (livePart p now))) now ck := by
  have hkeys := allKeys_answers pk now (cons_ne_nil p (p' :: rest))
  unfold coordinatedRead
  rw [foldl_addResponse]
  rw [← mergePartitionData_answers pk (p :: p' :: rest) now (.new {}),
    ← elim_fromPartitionData pk _ now (.new thresholds) ck, ← partitionVersions_answers]
  simp only [new, nil_append, resolve, map_cons]
  rw [map_cons, map_cons] at hkeys
  rw [hkeys, foldl_cons, foldl_nil, resolveKey]
  generalize mergePartitionData _ = merged
  rcases hres : fromPartitionData pk merged now (.new thresholds) with ⟨result, tracker⟩
  simp only
  split
  · simp [DataResponse.cells]
  · next hnothing =>
    simp only [gt_iff_lt, Bool.or_eq_true, decide_eq_true_eq, not_or, Bool.not_eq_true,
      Option.isSome_eq_false_iff, Option.isNone_iff_eq_none] at hnothing
    simp [DataResponse.cells, hnothing.2]

/-- A coordinated read shows the newest of the cells that the replicas answer with. -/
theorem mem_cells_coordinatedRead (hasher : Hasher) (thresholds : TombstoneThresholds)
    (pk : Bytes) (hd : ∀ p ∈ replicas, p.DistinctColumns) (ht : DistinctTimestamps replicas) :
    c ∈ (coordinatedRead hasher thresholds pk replicas now).cells ck ↔
      AnswerOpen replicas now ck ∧ IsNewest (answeredCells · now ck) replicas c := by
  match replicas, hd, ht with
  | [], _, _ => simp [coordinatedRead, new, resolve, DataResponse.empty,
      DataResponse.cells, IsNewest]
  | [p], hd, _ =>
    have hcells : (coordinatedRead hasher thresholds pk [p] now).cells ck = answeredCells p now ck :=
      cells_fromPartition pk p now ck
    rw [hcells]
    constructor
    · intro hc
      refine ⟨.inl rfl, ⟨p, by simp, hc⟩, fun p' hp' c' hc' hcol => ?_⟩
      obtain rfl : p' = p := by simpa using hp'
      -- a row has one cell of the column
      have hp := hd p' (by simp)
      have hcell := ((mem_answeredCells_view hp).mp hc).2.2.1
      have hcell' := ((mem_answeredCells_view hp).mp hc').2.2.1
      rw [hcol, hcell] at hcell'
      rw [Option.some.inj hcell']
    · rintro ⟨-, ⟨p', hp', hc⟩, -⟩
      obtain rfl : p' = p := by simpa using hp'
      exact hc
  | p :: p' :: rest, hd, ht =>
    rw [cells_coordinatedRead_of_two, mem_answeredCells_merged hd ht]
    simp [AnswerOpen]

theorem exists_isNewest (cells : PartitionData → List Cell) (hp : p ∈ replicas) (hc : c ∈ cells p) :
    ∃ d, d.column = c.column ∧ IsNewest cells replicas d := by
  have hmem : c ∈ (replicas.flatMap cells).filter (·.column = c.column) :=
    mem_filter.mpr ⟨mem_flatMap.mpr ⟨p, hp, hc⟩, by simp⟩
  obtain ⟨d, -, hdmem, hdtop⟩ := Lww.exists_argmax_of_mem Cell.timestamp hmem
  obtain ⟨hdmem, hcol⟩ := mem_filter.mp hdmem
  obtain ⟨p', hp', hdp'⟩ := mem_flatMap.mp hdmem
  have hcol : d.column = c.column := by simpa using hcol
  refine ⟨d, hcol, ⟨p', hp', hdp'⟩, fun q hq c' hc' hcol' => hdtop c' ?_⟩
  exact mem_filter.mpr ⟨mem_flatMap.mpr ⟨q, hq, hc'⟩, by simpa using hcol'.trans hcol⟩

theorem IsNewest.eq (ht : DistinctTimestamps replicas) {d : Cell}
    (hc : IsNewest (rowCells · ck) replicas c) (hd : IsNewest (rowCells · ck) replicas d)
    (hcol : c.column = d.column) : c = d := by
  obtain ⟨⟨p, hp, hcp⟩, hctop⟩ := hc
  obtain ⟨⟨p', hp', hdp'⟩, hdtop⟩ := hd
  exact ht p hp p' hp' ck c hcp d hdp' hcol
    (le_antisymm (hdtop p hp c hcp hcol) (hctop p' hp' d hdp' hcol.symm))

theorem AnswerOpen.rowOpen (h : AnswerOpen replicas now ck) (hp : p ∈ replicas)
    (hc : c ∈ answeredCells p now ck) : RowOpen replicas now ck := by
  intro t ht hle
  rcases h with hone | hopen
  · obtain ⟨q, rfl⟩ := length_eq_one_iff.mp hone
    obtain rfl : p = q := by simpa using hp
    obtain ⟨r, hr, -, hnewer, -, -⟩ := mem_answeredCells.mp hc
    have htomb : p.tombstone = some t := by
      cases hpt : p.tombstone with
      | none => simp [newestTombstone, hpt] at ht
      | some t' => simpa [newestTombstone, hpt] using ht
    obtain ⟨c', hc', hlt⟩ := hnewer t htomb
    exact ⟨p, hp, c', by simpa [rowCells, hr] using hc', hlt⟩
  · obtain ⟨q, hq, c', hc', hlt⟩ := hopen t ht
    exact ⟨q, hq, c', mem_rowCells_of_answered hc', hlt⟩

/-- A coordinated read equals a read of the merged replicas exactly when the filters of the
replicas do no harm. -/
theorem readsMerged_iff (hasher : Hasher) (thresholds : TombstoneThresholds) (pk : Bytes)
    (replicas : List PartitionData) (now : Int32) (hd : ∀ p ∈ replicas, p.DistinctColumns)
    (ht : DistinctTimestamps replicas) :
    ReadsMerged hasher thresholds pk replicas now ↔ FilterHarmless replicas now := by
  unfold ReadsMerged
  simp only [mem_cells_coordinatedRead hasher thresholds pk hd ht, mem_liveCells_merged hd ht]
  constructor
  · intro h
    constructor
    · intro ck hopen p hp c hc
      -- the newest answered cell of the column is shown, so the merged replicas show it too
      obtain ⟨d, hdcol, hdnewest⟩ := exists_isNewest (answeredCells · now ck) hp hc
      obtain ⟨hmark, -, hdtop, hdlive⟩ := (h ck d).mp ⟨hopen, hdnewest⟩
      refine ⟨hmark, fun e hecol hetop => ?_⟩
      rwa [hetop.eq ht hdtop (hecol.trans hdcol.symm)]
    · intro ck c hmark hopen hnewest hlive
      obtain ⟨hopen', ⟨p, hp, hc⟩, -⟩ := (h ck c).mpr ⟨hmark, hopen, hnewest, hlive⟩
      exact ⟨hopen', p, hp, hc⟩
  · intro h ck c
    constructor
    · rintro ⟨hopen, hnewest⟩
      obtain ⟨p, hp, hc⟩ := hnewest.1
      obtain ⟨hmark, hlive⟩ := h.nothingDeleted ck hopen p hp c hc
      have hrow := hopen.rowOpen hp hc
      -- the newest version of the column is answered, so it is `c`
      obtain ⟨d, hdcol, hdtop⟩ := exists_isNewest (rowCells · ck) hp (mem_rowCells_of_answered hc)
      have hdlive := hlive d hdcol hdtop
      obtain ⟨-, p', hp', hd'⟩ := h.nothingHidden ck d hmark hrow hdtop hdlive
      have hcd : c = d := by
        refine ht p hp p' hp' ck c (mem_rowCells_of_answered hc) d (mem_rowCells_of_answered hd')
          hdcol.symm (le_antisymm ?_ (hnewest.2 p' hp' d hd' hdcol))
        exact hdtop.2 p hp c (mem_rowCells_of_answered hc) hdcol.symm
      exact hcd ▸ ⟨hmark, hrow, hdtop, hdlive⟩
    · rintro ⟨hmark, hopen, hnewest, hlive⟩
      obtain ⟨hopen', p, hp, hc⟩ := h.nothingHidden ck c hmark hopen hnewest hlive
      exact ⟨hopen', ⟨p, hp, hc⟩, fun p' hp' c' hc' hcol =>
        hnewest.2 p' hp' c' (mem_rowCells_of_answered hc') hcol⟩

/-- A partition with one row, and one cell of column `v` in it. -/
def oneCell (c : Cell) : PartitionData := .ofWrites [.row ⟨[1], [c], false, none⟩]

def valueCell (value : UInt8) (timestamp : Int64) : Cell :=
  ⟨"v", some [value], timestamp, 0, none, false⟩

def deletedCell (timestamp : Int64) : Cell := ⟨"v", none, timestamp, 0, some 50, true⟩

/-- A value, and a newer one on another replica. -/
def newerValue : List PartitionData := [oneCell (valueCell 1 5), oneCell (valueCell 2 10)]

/-- A value, and a newer deletion on another replica. -/
def deletedElsewhere : List PartitionData := [oneCell (valueCell 1 5), oneCell (deletedCell 10)]

theorem getElem?_oneCell (c : Cell) (ck : Bytes) :
    (oneCell c).rows[ck]? = if ck = [1] then some ⟨[1], [c], false, none⟩ else none := by
  refine (getElem?_applyRow .empty ⟨[1], [c], false, none⟩ ck).trans ?_
  by_cases hck : ck = [1]
  · simp [hck, mergedRow]
  · simp [hck, Ne.symm hck]

theorem mem_rowCells_oneCell {d : Cell} (h : d ∈ rowCells (oneCell c) ck) : ck = [1] ∧ d = c := by
  rw [rowCells, getElem?_oneCell] at h
  split at h
  · next hck => exact ⟨hck, by simpa using h⟩
  · simp at h

theorem not_isTombstone_oneCell (h : (oneCell c).rows[ck]? = some r) : r.isTombstone = false := by
  rw [getElem?_oneCell] at h
  split at h
  · rw [← Option.some.inj h]
  · simp at h

theorem mem_answeredCells_oneCell (hlive : c.isLiveAt now = true) :
    c ∈ answeredCells (oneCell c) now [1] := by
  refine mem_answeredCells.mpr ⟨_, getElem?_oneCell c [1], rfl, fun t ht => ?_, by simp, hlive⟩
  exact absurd ht (by simp [oneCell, ofWrites, applyAll,
    apply, tombstone, applyRow, empty])

theorem distinctTimestamps_newerValue : DistinctTimestamps newerValue := by
  intro p hp p' hp' ck c hc c' hc' _ hts
  simp only [newerValue, mem_cons, not_mem_nil, or_false] at hp hp'
  rcases hp with rfl | rfl <;> rcases hp' with rfl | rfl <;>
    rw [(mem_rowCells_oneCell hc).2, (mem_rowCells_oneCell hc').2] at hts ⊢ <;>
    exact absurd hts (by decide)

theorem filterHarmless_newerValue : FilterHarmless newerValue 100 where
  nothingDeleted ck _ p _ c _ := by
    refine ⟨fun p hp r hr => ?_, fun d _ hd => ?_⟩
    · simp only [newerValue, mem_cons, not_mem_nil, or_false] at hp
      rcases hp with rfl | rfl <;> exact not_isTombstone_oneCell hr
    · obtain ⟨⟨p', hp', hd⟩, -⟩ := hd
      simp only [newerValue, mem_cons, not_mem_nil, or_false] at hp'
      rcases hp' with rfl | rfl <;> rw [(mem_rowCells_oneCell hd).2] <;> rfl
  nothingHidden ck c _ _ hnewest _ := by
    obtain ⟨⟨p, hp, hc⟩, -⟩ := hnewest
    have hnone : newestTombstone newerValue = none := rfl
    refine ⟨.inr fun t ht => absurd (hnone.symm.trans ht) (by simp), p, hp, ?_⟩
    simp only [newerValue, mem_cons, not_mem_nil, or_false] at hp
    rcases hp with rfl | rfl <;> obtain ⟨rfl, rfl⟩ := mem_rowCells_oneCell hc <;>
      exact mem_answeredCells_oneCell rfl

theorem readsMerged_newerValue : ReadsMerged (fun _ => []) {} [0] newerValue 100 :=
  (readsMerged_iff (fun _ => []) {} [0] newerValue 100 (by
      intro p hp
      simp only [newerValue, mem_cons, not_mem_nil, or_false] at hp
      rcases hp with rfl | rfl <;> exact distinctColumns_ofWrites (by decide))
    distinctTimestamps_newerValue).mpr filterHarmless_newerValue

/-- The deleted value reappears. -/
theorem not_readsMerged_deletedElsewhere :
    ¬ ReadsMerged (fun _ => []) {} [0] deletedElsewhere 100 := by
  intro h
  have hshown : (coordinatedRead (fun _ => []) {} [0] deletedElsewhere 100).cells [1] =
      [valueCell 1 5] := rfl
  have hmerged : (mergePartitionData (deletedElsewhere.map some)).liveCells 100 [1] = [] := rfl
  have hcell := h [1] (valueCell 1 5)
  rw [hshown, hmerged] at hcell
  simp at hcell

end CassandraVerified.Read
