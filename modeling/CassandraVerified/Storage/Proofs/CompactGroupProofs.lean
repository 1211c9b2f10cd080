import CassandraVerified.Storage.CompactGroup
import CassandraVerified.Storage.Proofs.ConvergenceProofs
import CassandraVerified.Storage.Proofs.PurgeProofs
import CassandraVerified.Storage.Proofs.ReadProofs

/-!
# Proofs: compacting a group of SSTables

A read before the compaction shows the operations outside the group and those of the group; a read
after it those outside the group and those of the purged merge of the group.
-/

namespace CassandraVerified.Storage

open List
open Std (ExtTreeMap)
open PartitionData

variable {p : PartitionData} {now : Int32} {c : Cell} {ck : Bytes} {t : Int64 × Int32}

variable {s : Source} {ws : List Write} {fails : Nat → Bool} {r : Row} {pk : Bytes}

/-! ## Partitions as operations -/

namespace Source

/-- The operations that a list of partitions stands for. -/
def ledger (s : Source) : Ledger := s.flatMap fun x => x.2.writes.map (x.1, ·)

theorem writesTo_ledger (hkeys : (s.map Prod.fst).Nodup) (pk : Bytes) :
    (ledger s).writesTo pk = (s.lookup pk).elim [] writes := by
  induction s with
  | nil => rfl
  | cons x s ih =>
    rw [map_cons, nodup_cons] at hkeys
    have hrest : (ledger (x :: s)).writesTo pk =
        (if x.1 = pk then x.2.writes else []) ++ (ledger s).writesTo pk := by
      rw [ledger, flatMap_cons, Ledger.writesTo_append, Ledger.writesTo_map]
      rfl
    rw [hrest, ih hkeys.2]
    by_cases hpk : x.1 = pk
    · subst hpk
      have hnone : s.lookup x.1 = none := by
        rw [lookup_eq_none_iff]
        intro y hy
        have hne : x.1 ≠ y.1 := fun h => hkeys.1 (h ▸ mem_map_of_mem hy)
        simpa using hne
      simp [hnone, List.lookup]
    · have hbeq : (pk == x.1) = false := by simpa using Ne.symm hpk
      simp [hpk, List.lookup, hbeq]

theorem lookup_eq_partitionOf (hkeys : (s.map Prod.fst).Nodup) (hne : ∀ x ∈ s, x.2.writes ≠ [])
    (pk : Bytes) :
    s.lookup pk = partitionOf ((ledger s).writesTo pk) := by
  rw [writesTo_ledger hkeys]
  cases hlookup : s.lookup pk with
  | none => rfl
  | some p =>
    have hmem := (TreeMap.lookup_eq_some_iff hkeys).mp hlookup
    have hp : p.writes ≠ [] := hne _ hmem
    simp only [Option.elim_some]
    obtain ⟨w, ws, hws⟩ := exists_cons_of_ne_nil hp
    rw [hws, partitionOf, ← hws, ofWrites_writes]

end Source

theorem partitionOf_append {us : List Write} (h : us ≠ []) :
    partitionOf (ws ++ us) = some (((partitionOf ws).getD .empty).applyAll us) := by
  cases ws with
  | nil =>
    obtain ⟨u, us, rfl⟩ := exists_cons_of_ne_nil h
    rfl
  | cons w ws =>
    simp only [partitionOf, cons_append, Option.getD_some, Option.some.injEq]
    rw [← cons_append, ofWrites, applyAll_append, ofWrites]

theorem partitionOf_eq_some (h : partitionOf ws = some p) : ws ≠ [] ∧ p = .ofWrites ws := by
  cases ws with
  | nil => cases h
  | cons w ws => exact ⟨by simp, (Option.some.inj h).symm⟩

/-! ## The merge -/

theorem mergePartition_eq_applyAll (entry p : PartitionData) :
    entry.mergePartition p = entry.applyAll
      (p.tombstone.toList.map (fun t => .tombstone t.1 t.2) ++ p.rowList.map .row) := by
  rw [applyAll_append, applyAll_map_row]
  unfold mergePartition tombstone
  cases p.tombstoneTimestamp <;> cases p.tombstoneLocalDeletionTime <;> rfl

theorem mem_mergedWrites {w : Write} :
    w ∈ p.tombstone.toList.map (fun t => Write.tombstone t.1 t.2) ++ p.rowList.map Write.row ↔
      w ∈ p.writes := by
  rw [writes, mem_append, mem_append, or_comm]

/-- The operations that the entries of a source bring to a partition. -/
def Source.Brings (s : Source) (pk : Bytes) (w : Write) : Prop := ∃ x ∈ s, x.1 = pk ∧ w ∈ x.2.writes

/-- The merged map is made of the operations that the sources bring. -/
def MergeOf (m : ExtTreeMap Bytes PartitionData) (s : Source) : Prop :=
  ∀ pk, ∃ ws, m[pk]? = partitionOf ws ∧ ∀ w, w ∈ ws ↔ s.Brings pk w

variable {m : ExtTreeMap Bytes PartitionData} {options : CompactionOptions} {groupIds : List Nat}
  {result : Option PartitionData}

theorem MergeOf.concat (h : MergeOf m s) (x : Bytes × PartitionData) (hne : x.2.writes ≠ []) :
    MergeOf (m.alter x.1 fun entry => some ((entry.getD .empty).mergePartition x.2)) (s ++ [x])
      := by
  intro pk
  obtain ⟨ws, hws, hmem⟩ := h pk
  rw [ExtTreeMap.getElem?_alter]
  by_cases hpk : x.1 = pk
  · subst hpk
    refine ⟨ws ++ (x.2.tombstone.toList.map (fun t => .tombstone t.1 t.2) ++
      x.2.rowList.map .row), ?_, fun w => ?_⟩
    · have hne' : x.2.tombstone.toList.map (fun t => Write.tombstone t.1 t.2) ++
          x.2.rowList.map Write.row ≠ [] := by
        obtain ⟨w, hw⟩ := exists_mem_of_ne_nil _ hne
        exact ne_nil_of_mem (mem_mergedWrites.mpr hw)
      rw [partitionOf_append hne']
      simp [hws, mergePartition_eq_applyAll]
    · rw [mem_append, mem_mergedWrites, hmem]
      simp only [Source.Brings, mem_append, mem_singleton]
      grind
  · refine ⟨ws, by simp [hpk, hws], fun w => ?_⟩
    rw [hmem]
    simp only [Source.Brings, mem_append, mem_singleton]
    grind

theorem mergeOf_mergeSource (h : MergeOf m s) (source : Source)
    (hne : ∀ x ∈ source, x.2.writes ≠ []) :
    MergeOf (mergeSource m source) (s ++ source) := by
  induction source generalizing m s with
  | nil => simpa [mergeSource] using h
  | cons x source ih =>
    have hstep := h.concat x (hne x mem_cons_self)
    have hrest := ih hstep fun y hy => hne y (mem_cons_of_mem _ hy)
    rw [append_assoc] at hrest
    exact hrest

theorem mergeOf_mergeSources (sources : List Source)
    (hne : ∀ s ∈ sources, ∀ x ∈ s, x.2.writes ≠ []) :
    MergeOf (mergeSources sources) sources.flatten := by
  suffices h : ∀ {m : ExtTreeMap Bytes PartitionData} {s : Source}, MergeOf m s →
      MergeOf (sources.foldl mergeSource m) (s ++ sources.flatten) by
    refine h (m := ∅) (s := []) fun pk => ⟨[], by simp [partitionOf], by simp [Source.Brings]⟩
  induction sources with
  | nil => intro m s hm; simpa using hm
  | cons source sources ih =>
    intro m s hm
    have hstep := mergeOf_mergeSource hm source (hne source mem_cons_self)
    have hrest := ih (fun t ht => hne t (mem_cons_of_mem _ ht)) hstep
    rw [append_assoc] at hrest
    exact hrest

/-! ## The output -/

theorem greedilySplit_splitBatches {maxSize : Nat} (partitions current : Source)
    (h : 1 < current.length → current.estimatedSize ≤ maxSize) :
    GreedilySplit (current ++ partitions) (some maxSize)
      (splitBatches maxSize partitions current current.estimatedSize) := by
  induction partitions generalizing current with
  | nil =>
    rw [splitBatches]
    cases current with
    | nil => exact ⟨rfl, by simp, by simp, .nil⟩
    | cons e current => exact ⟨by simp, by simp, by simpa using h, .singleton _⟩
  | cons e partitions ih =>
    rw [splitBatches]
    split
    · next hclose =>
      have hsize : Source.estimatedSize [e] = estimateCompactionOutputSize e.1 e.2 := by
        simp [Source.estimatedSize]
      obtain ⟨hflatten, hnonempty, hwithin, hgreedy⟩ := ih [e] (by simp)
      rw [← hsize]
      refine ⟨by rw [flatten_cons, hflatten]; rfl, ?_, ?_, ?_⟩
      · simpa using ⟨by simpa using hclose.1, hnonempty⟩
      · simpa using ⟨h, by simpa using hwithin⟩
      · refine isChain_cons.mpr ⟨fun next hnext => ⟨maxSize, rfl, fun e' he' => ?_⟩, hgreedy⟩
        -- the next batch begins with the partition that did not fit
        obtain ⟨batches, hbatches⟩ := head?_eq_some_iff.mp hnext
        obtain ⟨rest, rfl⟩ := head?_eq_some_iff.mp he'
        rw [hbatches] at hflatten
        cases hflatten
        exact hclose.2
    · next hopen =>
      have hsize : (current ++ [e]).estimatedSize =
          current.estimatedSize + estimateCompactionOutputSize e.1 e.2 := by
        simp [Source.estimatedSize]
      rw [← hsize, append_cons]
      refine ih (current ++ [e]) fun hlong => ?_
      have hne : current ≠ [] := by
        rintro rfl
        simp at hlong
      simpa [hne, hsize] using hopen

theorem flatten_splitCompactionOutput (partitions : Source) (maxSize : Option Nat) :
    (splitCompactionOutput partitions maxSize).flatten = partitions := by
  unfold splitCompactionOutput
  split
  · cases partitions <;> simp
  · exact (greedilySplit_splitBatches partitions [] (by simp)).flatten

/-- A maximum of zero is none. -/
theorem greedilySplit_splitCompactionOutput (partitions : Source) (maxSize : Option Nat) :
    GreedilySplit partitions (maxSize.filter (0 < ·)) (splitCompactionOutput partitions maxSize) := by
  unfold splitCompactionOutput
  cases maxSize.filter (0 < ·) with
  | none => cases partitions <;> exact ⟨by simp, by simp, by simp, by simp⟩
  | some maxSize => exact greedilySplit_splitBatches partitions [] (by simp)

/-- With a maximum of zero, two partitions are one batch. -/
theorem not_greedilySplit_zero : ¬ GreedilySplit [([0], .empty), ([1], .empty)] (some 0)
      (splitCompactionOutput [([0], .empty), ([1], .empty)] (some 0)) := fun h =>
  absurd (h.within 0 rfl _ (mem_singleton_self _) (by decide)) (by decide)

theorem writeBatches_content {keyspace table : String} {batches : List Source}
    {generation next : Nat} {outs : List SSTable}
    (h : Engine.writeBatches contentLayer keyspace table fails batches generation =
      (next, .ok outs)) :
    outs.map SSTable.partitions = batches ∧
      ∀ t ∈ outs, t.keyspace = keyspace ∧ t.table = table ∧ generation ≤ t.generation := by
  induction batches generalizing generation next outs with
  | nil =>
    obtain ⟨-, rfl⟩ : generation = next ∧ [] = outs := by simpa [Engine.writeBatches] using h
    simp
  | cons batch batches ih =>
    rw [Engine.writeBatches] at h
    split at h
    · cases h
    · next t ht =>
      split at h
      · cases h
      · next tables hrest =>
        cases h
        obtain ⟨hparts, hnames⟩ := ih hrest
        obtain rfl : (⟨keyspace, table, generation, batch⟩ : SSTable) = t := by
          split at ht
          · cases ht
          · exact Except.ok.inj ht
        refine ⟨by rw [map_cons, hparts], fun t ht => ?_⟩
        rcases mem_cons.mp ht with rfl | ht
        · exact ⟨rfl, rfl, le_rfl⟩
        · obtain ⟨hks, htab, hgen⟩ := hnames t ht
          exact ⟨hks, htab, by omega⟩

/-- The SSTables outside the group stay, and tables with the partitions of the compacted group are
added. -/
theorem Store.compactGroup_ok {e e' : Store}
    (h : e.compactGroup contentLayer options now fails groupIds = (e', .ok ())) :
    e'.memtables = e.memtables ∧ ∃ outs : List SSTable,
      e'.sstables = e.sstables.filter (fun t => t.generation ∉ groupIds) ++ outs ∧
      (outs.map SSTable.partitions).flatten =
        mergePartitions (e.groupSources groupIds) options.gcGraceSeconds now ∧
      ∀ t ∈ outs, e.nextGeneration ≤ t.generation ∧ ∃ first ∈ e.sstables,
        first.generation ∈ groupIds ∧ t.keyspace = first.keyspace ∧ t.table = first.table := by
  unfold Engine.compactGroup at h
  have hsources : ∀ ts : List SSTable,
      ts.mapM contentLayer.iterPartitions = .ok (ts.map SSTable.iterPartitions) := fun _ => mapM_pure
  unfold Store.groupSources
  cases hgroup : e.sstables.filter (fun t => contentLayer.generation t ∈ groupIds) with
  | nil =>
    have hall : e.sstables.filter (fun t => t.generation ∉ groupIds) = e.sstables := by
      rw [filter_eq_self]
      intro t ht
      have hnot : ¬ decide (t.generation ∈ groupIds) = true := filter_eq_nil_iff.mp hgroup t ht
      simpa using hnot
    have hnil : e.sstables.filter (fun t => t.generation ∈ groupIds) = [] := hgroup
    simp only [hgroup] at h
    cases h
    refine ⟨rfl, [], by rw [hall, append_nil], ?_, by simp⟩
    rw [hnil]
    rfl
  | cons first rest =>
    have hfirst : first ∈ e.sstables ∧ first.generation ∈ groupIds := by
      have hmem : first ∈ e.sstables.filter (fun t => contentLayer.generation t ∈ groupIds) := by
        rw [hgroup]
        exact mem_cons_self
      exact ⟨(mem_filter.mp hmem).1, of_decide_eq_true (mem_filter.mp hmem).2⟩
    have hcons : e.sstables.filter (fun t => t.generation ∈ groupIds) = first :: rest := hgroup
    simp only [hgroup, hsources] at h
    rw [hcons]
    split at h
    · next hempty =>
      cases h
      exact ⟨rfl, [], (append_nil _).symm, (isEmpty_iff.mp hempty).symm, by simp⟩
    · split at h
      · cases h
      · next next outs hwrite =>
        cases h
        obtain ⟨hparts, hout⟩ := writeBatches_content hwrite
        refine ⟨rfl, outs, rfl, ?_, fun t ht => ?_⟩
        · rw [hparts, flatten_splitCompactionOutput]
        · obtain ⟨hks, htab, hgen⟩ := hout t ht
          exact ⟨hgen, first, hfirst.1, hfirst.2, hks, htab⟩

theorem Store.compactGroup_error {e e' : Store} {err : EngineError}
    (h : e.compactGroup contentLayer options now fails groupIds = (e', .error err)) :
    e'.memtables = e.memtables ∧ e'.sstables = e.sstables := by
  unfold Engine.compactGroup at h
  split at h
  · cases h
  · split at h
    · cases h
      exact ⟨rfl, rfl⟩
    · simp only at h
      split at h
      · cases h
      · split at h
        · cases h
          exact ⟨rfl, rfl⟩
        · cases h

/-! ## What the purge keeps -/

section Purge

variable {gcCutoff : Int32}

theorem purgeRow_eq_some {r' : Row} : purgeRow gcCutoff now r = some r' ↔
      ¬ (r.isTombstone = true ∧ ∃ l ∈ r.localDeletionTime, l ≤ gcCutoff) ∧
      (r.cells.filter (cellRetained gcCutoff now) ≠ [] ∨ r.isTombstone = true) ∧
      r' = { r with cells := r.cells.filter (cellRetained gcCutoff now) } := by
  have hany : r.localDeletionTime.any (· ≤ gcCutoff) = true ↔
      ∃ l ∈ r.localDeletionTime, l ≤ gcCutoff := by
    cases r.localDeletionTime <;> simp
  simp only [purgeRow, Bool.and_eq_true, hany]
  split
  · next h => exact ⟨fun hnone => (nomatch hnone), fun hkept => absurd h hkept.1⟩
  · next h =>
    simp only [h, not_false_eq_true, true_and]
    cases hcells : r.cells.filter (cellRetained gcCutoff now) <;>
      cases htomb : r.isTombstone <;> simp [eq_comm]

theorem cellRetained_tombstone (h : c.isTombstone = true) :
    cellRetained gcCutoff now c = true ↔ ¬ ∃ l ∈ c.localDeletionTime, l ≤ gcCutoff := by
  unfold cellRetained
  cases c.localDeletionTime <;> simp [h]

namespace PartitionData

/-- What a purge leaves of a partition, also where that is nothing. -/
def purged (gcCutoff now : Int32) (p : PartitionData) : PartitionData :=
  (p.purgeTombstone gcCutoff).purgeRows gcCutoff now

theorem tombstone_purged (p : PartitionData) :
    (p.purged gcCutoff now).tombstone = p.tombstone.filter fun t => gcCutoff < t.2 :=
  tombstone_purgeTombstone gcCutoff p

theorem getElem?_purged (p : PartitionData) (ck : Bytes) :
    (p.purged gcCutoff now).rows[ck]? = p.rows[ck]?.bind (purgeRow gcCutoff now) := by
  rw [purged, getElem?_purgeRows, rows_purgeTombstone]

theorem getElem?_purged_eq_some {r' : Row} : (p.purged gcCutoff now).rows[ck]? = some r' ↔
      ∃ r : Row, p.rows[ck]? = some r ∧ purgeRow gcCutoff now r = some r' := by
  rw [getElem?_purged, Option.bind_eq_some_iff]

theorem DistinctColumns.purged (h : p.DistinctColumns) :
    (p.purged gcCutoff now).DistinctColumns := by
  intro ck r' hr'
  obtain ⟨r, hr, hpurge⟩ := getElem?_purged_eq_some.mp hr'
  obtain ⟨-, -, rfl⟩ := purgeRow_eq_some.mp hpurge
  exact (h ck r hr).sublist (filter_sublist.map _)

theorem row_mem_writes : Write.row r ∈ p.writes ↔ p.rows[r.clusteringKey]? = some r := by
  simp only [writes, mem_append, mem_map, Write.row.injEq, exists_eq_right, reduceCtorEq,
    and_false, exists_false, or_false]
  rw [rowList, TreeMap.mem_values]
  constructor
  · rintro ⟨ck, hck⟩
    rwa [p.keyed ck r hck]
  · exact fun h => ⟨_, h⟩

theorem tombstone_mem_writes {ts : Int64} {ldt : Int32} :
    Write.tombstone ts ldt ∈ p.writes ↔ p.tombstone = some (ts, ldt) := by
  simp [writes]

theorem writes_eq_nil_iff :
    p.writes = [] ↔ p.rows.isEmpty = true ∧ p.tombstoneTimestamp = none := by
  rw [writes, append_eq_nil_iff, map_eq_nil_iff, map_eq_nil_iff,
    Option.toList_eq_nil_iff, tombstone_eq_none, rowList, TreeMap.values, map_eq_nil_iff]
  simp

theorem purge_eq_some_iff {p' : PartitionData} : p.purge gcCutoff now = some p' ↔
      p' = p.purged gcCutoff now ∧ (p.purged gcCutoff now).writes ≠ [] := by
  have hcond : (!(p.purged gcCutoff now).rows.isEmpty ||
      (p.purged gcCutoff now).tombstoneTimestamp.isSome) = true ↔
        (p.purged gcCutoff now).writes ≠ [] := by
    rw [Ne, writes_eq_nil_iff]
    cases (p.purged gcCutoff now).rows.isEmpty <;>
      cases (p.purged gcCutoff now).tombstoneTimestamp <;> simp
  change (if (!(p.purged gcCutoff now).rows.isEmpty ||
      (p.purged gcCutoff now).tombstoneTimestamp.isSome) = true
    then some (p.purged gcCutoff now) else none) = some p' ↔ _
  rw [Option.ite_none_right_eq_some, hcond, Option.some.injEq, and_comm, eq_comm]

end PartitionData

theorem Deletion.not_in_empty (d : Deletion) : ¬ d.In (.ofWrites []) := by
  have hrows : ∀ ck : Bytes, (ofWrites []).rows[ck]? = none := rows_empty
  cases d with
  | partition => exact fun h => nomatch h
  | row => simp [Deletion.In, hrows]
  | cell => simp [Deletion.In, hrows]

/-- A purge drops exactly the tombstones whose grace period is over. -/
theorem Deletion.in_purged_iff {d : Deletion} :
    d.In (p.purged gcCutoff now) ↔ d.In p ∧ ¬ d.Purgeable gcCutoff p := by
  cases d with
  | partition ts ldt =>
    simp [Deletion.In, Deletion.Purgeable, tombstone_purged]
  | row ck ldt =>
    simp only [Deletion.In, Deletion.Purgeable, getElem?_purged_eq_some, purgeRow_eq_some]
    constructor
    · rintro ⟨_, ⟨r, hr, hkept, -, rfl⟩, htomb, hldt⟩
      exact ⟨⟨r, hr, htomb, hldt⟩, fun h => hkept ⟨htomb, hldt ▸ h⟩⟩
    · rintro ⟨⟨r, hr, htomb, hldt⟩, hkept⟩
      exact ⟨_, ⟨r, hr, fun h => hkept (hldt ▸ h.2), .inr htomb, rfl⟩, htomb, hldt⟩
  | cell ck c =>
    simp only [Deletion.In, Deletion.Purgeable, getElem?_purged_eq_some, purgeRow_eq_some]
    constructor
    · rintro ⟨_, ⟨r, hr, hkept, -, rfl⟩, hc, htomb⟩
      obtain ⟨hmem, hret⟩ := mem_filter.mp hc
      refine ⟨⟨r, hr, hmem, htomb⟩, ?_⟩
      rintro (hldt | ⟨r', hr', hrow⟩)
      · exact (cellRetained_tombstone htomb).mp hret hldt
      · obtain rfl : r = r' := Option.some.inj (hr.symm.trans hr')
        exact hkept hrow
    · rintro ⟨⟨r, hr, hc, htomb⟩, hkept⟩
      rw [not_or] at hkept
      have hmem : c ∈ r.cells.filter (cellRetained gcCutoff now) :=
        mem_filter.mpr ⟨hc, (cellRetained_tombstone htomb).mpr hkept.1⟩
      exact ⟨_, ⟨r, hr, fun h => hkept.2 ⟨r, hr, h⟩, .inl (ne_nil_of_mem hmem), rfl⟩, hmem, htomb⟩

end Purge

/-! ## Hidden before, hidden after -/

theorem mem_cellsOf_writes {col : String} :
    c ∈ cellsOf p.writes ck col ↔ ∃ r : Row, p.rows[ck]? = some r ∧ c ∈ r.cells ∧ c.column = col := by
  rw [mem_cellsOf]
  constructor
  · rintro ⟨r, hr, rfl, hc⟩
    exact ⟨r, row_mem_writes.mp hr, hc⟩
  · rintro ⟨r, hr, hc⟩
    obtain rfl := p.keyed ck r hr
    exact ⟨r, row_mem_writes.mpr hr, rfl, hc⟩

theorem mem_tombstonesOf_writes : t ∈ tombstonesOf p.writes ↔ p.tombstone = some t := by
  rw [mem_tombstonesOf, tombstone_mem_writes]

/-- A cell that a reader sees: its row is shown, it is the newest of its column, and it is live. -/
def View.ShowsCell (v : View) (now : Int32) (ck : Bytes) (c : Cell) : Prop :=
  v.RowShown now ck ∧ v.cell ck c.column = some c ∧ c.isLiveAt now = true

/-- A deletion hides what the column of `c` in row `ck` holds. -/
def View.Hides (v : View) (now : Int32) (ck : Bytes) (c : Cell) : Prop := v.marked ck = true ∨
    (∃ t, v.tombstone = some t ∧ t.2 ≤ now ∧ ∀ col d, v.cell ck col = some d → d.timestamp ≤ t.1) ∨
    ∃ d, v.cell ck c.column = some d ∧ d.isTombstone = true

theorem Shows.hides (h : Shows result ws) (hd : DeletionHides result now ck c) :
    (viewOf ws).Hides now ck c := by
  obtain ⟨p, hp, hrow | hcell⟩ := hd
  · obtain ⟨r, hr, hlive⟩ := hrow
    have hview := h.view_eq p hp
    have hshown : ¬ p.view.RowShown now ck := by
      rw [← rowIsLive_iff_rowShown (h.distinctColumns p hp) hr, hlive]
      exact Bool.false_ne_true
    have htouched : p.view.touched ck = true := by
      simp only [view, hr, Option.isSome_some]
    rw [hview] at hshown htouched
    unfold View.RowShown at hshown
    unfold View.Hides
    by_cases hmark : (viewOf ws).marked ck = true
    · exact .inl hmark
    · refine .inr (.inl ?_)
      by_contra hno
      refine hshown ⟨htouched, by simpa using hmark, fun ts ldt htomb hldt => ?_⟩
      by_contra hnewer
      push Not at hno hnewer
      obtain ⟨col, d, hd, hlt⟩ := hno (ts, ldt) htomb hldt
      exact absurd hlt (not_lt.mpr (hnewer col d hd))
  · rw [h.view_eq p hp] at hcell
    exact .inr (.inr hcell)

theorem Shows.showsCell (h : Shows result ws) (hc : c ∈ liveCellsOf result now ck) :
    (viewOf ws).ShowsCell now ck c := by
  cases result with
  | none => simp [liveCellsOf] at hc
  | some p =>
    have hp := h.distinctColumns p rfl
    simp only [liveCellsOf, Option.elim_some, liveCells, mem_filter] at hc
    cases hlive : p.liveRow now ck with
    | none => simp [hlive] at hc
    | some r =>
      simp only [hlive, Option.elim_some] at hc
      have hrow := liveRow_eq_some.mp hlive
      rw [← h.view_eq p rfl]
      refine ⟨(exists_liveRow_iff hp).mp ⟨r, hlive⟩, ?_, hc.2⟩
      rw [cell?_of_liveRow hlive, Row.cell?_eq_some_iff (hp ck r hrow.1)]
      exact ⟨hc.1, rfl⟩

/-- `outside` are the operations that the memtable and the other SSTables hold, `group` those that
were merged into `p`. Reads show `before` and `after`. -/
structure PurgedRead (gcCutoff now : Int32) (outside group before after : List Write)
    (p : PartitionData) : Prop where
  distinct : p.DistinctColumns
  view_eq : p.view = viewOf group
  before_iff : ∀ w, w ∈ before ↔ w ∈ outside ∨ w ∈ group
  after_iff : ∀ w, w ∈ after ↔ w ∈ outside ∨ w ∈ (p.purged gcCutoff now).writes
  agree : ∀ t ∈ tombstonesOf before, ∀ t' ∈ tombstonesOf before, t.1 = t'.1 → t = t'

namespace PurgedRead

variable {gcCutoff : Int32} {outside group before after : List Write}
  {col : String} {d : Cell}

theorem exists_row_of_purged (hc : c ∈ cellsOf (p.purged gcCutoff now).writes ck col) :
    ∃ r : Row, p.rows[ck]? = some r ∧ c ∈ r.cells ∧ c.column = col := by
  obtain ⟨r', hr', hc, hcol⟩ := mem_cellsOf_writes.mp hc
  obtain ⟨r, hr, hpurge⟩ := getElem?_purged_eq_some.mp hr'
  obtain ⟨-, -, rfl⟩ := purgeRow_eq_some.mp hpurge
  exact ⟨r, hr, (mem_filter.mp hc).1, hcol⟩

section

variable (h : PurgedRead gcCutoff now outside group before after p)

include h

theorem mem_cells_before :
    c ∈ cellsOf before ck col ↔ c ∈ cellsOf outside ck col ∨ c ∈ cellsOf group ck col := by
  simp only [mem_cellsOf, h.before_iff, or_and_right, exists_or]

theorem mem_cells_after : c ∈ cellsOf after ck col ↔ c ∈ cellsOf outside ck col ∨
      c ∈ cellsOf (p.purged gcCutoff now).writes ck col := by
  simp only [mem_cellsOf, h.after_iff, or_and_right, exists_or]

theorem mem_tombstones_after : t ∈ tombstonesOf after ↔ t ∈ tombstonesOf outside ∨
      (p.purged gcCutoff now).tombstone = some t := by
  rw [← mem_tombstonesOf_writes]
  simp only [mem_tombstonesOf, h.after_iff]

theorem mem_group_of_row (hr : p.rows[ck]? = some r) (hc : c ∈ r.cells) :
    c ∈ cellsOf group ck c.column := by
  have hcell : p.view.cell ck c.column = some c := by
    simp only [view, hr, Option.bind_some]
    exact (Row.cell?_eq_some_iff (h.distinct ck r hr)).mpr ⟨hc, rfl⟩
  rw [h.view_eq] at hcell
  exact (Lww.isTop_of_mem_argmax _ hcell).1

theorem cells_before_of_after (hc : c ∈ cellsOf after ck col) : c ∈ cellsOf before ck col := by
  rcases h.mem_cells_after.mp hc with hout | hleft
  · exact h.mem_cells_before.mpr (.inl hout)
  · obtain ⟨r, hr, hmem, rfl⟩ := exists_row_of_purged hleft
    exact h.mem_cells_before.mpr (.inr (h.mem_group_of_row hr hmem))

theorem tombstones_before_of_after (ht : t ∈ tombstonesOf after) : t ∈ tombstonesOf before := by
  have hbefore : t ∈ tombstonesOf outside ∨ t ∈ tombstonesOf group → t ∈ tombstonesOf before := by
    simp only [mem_tombstonesOf, h.before_iff]
    exact id
  refine hbefore ?_
  rcases h.mem_tombstones_after.mp ht with hout | hleft
  · exact .inl hout
  · rw [tombstone_purged, Option.filter_eq_some_iff] at hleft
    have htomb : (viewOf group).tombstone = some t := h.view_eq ▸ hleft.1
    exact .inr (Lww.isTop_of_mem_argmax _ htomb).1

theorem tombstone_of_subset {tomb : Int64 × Int32}
    (hsub : ∀ t ∈ tombstonesOf ws, t ∈ tombstonesOf before)
    (htop : Lww.IsTop Prod.fst (tombstonesOf before) tomb) (hmem : tomb ∈ tombstonesOf ws) :
    (viewOf ws).tombstone = some tomb :=
  Lww.argmax_eq_some_of_isTop _ ⟨hmem, fun t ht => htop.2 t (hsub t ht)⟩ fun t ht =>
    h.agree t (hsub t ht.1) tomb htop.1 (le_antisymm (htop.2 t (hsub t ht.1)) (ht.2 tomb hmem))

variable {t : Int32}
  (hnothing : ∀ d : Deletion, d.In p → d.Purgeable gcCutoff p → ¬ d.Shadows outside)

include hnothing

/-- A row that was marked as deleted shows no cell afterwards. -/
theorem not_showsCell_of_marked (hmark : (viewOf before).marked ck = true) :
    ¬ (viewOf after).ShowsCell t ck c := by
  rintro ⟨⟨-, hafter, -⟩, hcell, hlive⟩
  have hntomb := ((Cell.isLiveAt_iff c t).mp hlive).1
  have hafter : ∀ r, Write.row r ∈ after → r.clusteringKey = ck → r.isTombstone = false := by
    intro r hr hck
    by_contra htomb
    have hm := viewOf_marked.mpr ⟨r, hr, hck, by simpa using htomb⟩
    rw [hm] at hafter
    cases hafter
  obtain ⟨r, hr, hck, htomb⟩ := viewOf_marked.mp hmark
  rcases (h.before_iff _).mp hr with hout | hgroup
  · exact absurd (hafter r ((h.after_iff _).mpr (.inl hout)) hck) (by simp [htomb])
  · have hmarked : p.view.marked ck = true := h.view_eq ▸ viewOf_marked.mpr ⟨r, hgroup, hck, htomb⟩
    obtain ⟨m, hm, hmtomb⟩ : ∃ m : Row, p.rows[ck]? = some m ∧ m.isTombstone = true := by
      simpa [view, Option.any_eq_true] using hmarked
    have hin : (Deletion.row ck m.localDeletionTime).In p := ⟨m, hm, hmtomb, rfl⟩
    by_cases hpurge : (Deletion.row ck m.localDeletionTime).Purgeable gcCutoff p
    · -- the merged row is gone, and outside the group nothing but cell tombstones is left
      have hc : c ∈ cellsOf after ck c.column := (Lww.isTop_of_mem_argmax _ hcell).1
      rcases h.mem_cells_after.mp hc with hout | hleft
      · exact hnothing _ hin hpurge ⟨c.column, c, hout, hntomb⟩
      · obtain ⟨r', hr', -, -⟩ := mem_cellsOf_writes.mp hleft
        obtain ⟨r'', hr'', hkept⟩ := getElem?_purged_eq_some.mp hr'
        obtain rfl : m = r'' := Option.some.inj (hm.symm.trans hr'')
        exact (purgeRow_eq_some.mp hkept).1 ⟨hmtomb, hpurge⟩
    · obtain ⟨m', hm', hmtomb', -⟩ := Deletion.in_purged_iff.mpr ⟨hin, hpurge⟩
      have hck' := (p.purged gcCutoff now).keyed ck m' hm'
      have hw : Write.row m' ∈ after :=
        (h.after_iff _).mpr (.inr (row_mem_writes.mpr (hck'.symm ▸ hm')))
      exact absurd (hafter m' hw hck') (by simp [hmtomb'])

/-- A column whose newest cell was a tombstone shows no cell afterwards. -/
theorem not_showsCell_of_cell (hcell : (viewOf before).cell ck c.column = some d)
    (htomb : d.isTombstone = true) : ¬ (viewOf after).ShowsCell t ck c := by
  rintro ⟨-, hafter, hlive⟩
  have hntomb := ((Cell.isLiveAt_iff c t).mp hlive).1
  have htop := Lww.isTop_of_mem_argmax _ hcell
  have htop' := Lww.isTop_of_mem_argmax _ hafter
  have hle : c.rank ≤ d.rank := htop.2 c (h.cells_before_of_after htop'.1)
  -- no tombstone of the rank of `d` can be left
  have hgone : ∀ d' : Cell, d'.rank = d.rank → d' ∉ cellsOf after ck c.column := by
    intro d' hrank hd'
    have heq : c.rank = d.rank := le_antisymm hle (hrank ▸ htop'.2 d' hd')
    have hsame : c.isTombstone = d.isTombstone := congrArg (fun x => (ofLex x).2) heq
    rw [hntomb, htomb] at hsame
    cases hsame
  have hgroup : d ∈ cellsOf group ck c.column := by
    rcases h.mem_cells_before.mp htop.1 with hout | hgroup
    · exact absurd (h.mem_cells_after.mpr (.inl hout)) (hgone d rfl)
    · exact hgroup
  obtain ⟨m, hm, hmtop⟩ : ∃ m, (viewOf group).cell ck c.column = some m ∧ _ :=
    Lww.exists_argmax_of_mem Cell.rank hgroup
  have hrank : m.rank = d.rank :=
    le_antisymm (htop.2 m (h.mem_cells_before.mpr (.inr hmtop.1))) (hmtop.2 d hgroup)
  have hmtomb : m.isTombstone = true := (congrArg (fun x => (ofLex x).2) hrank).trans htomb
  obtain ⟨r, hr, hmr, hcol⟩ : ∃ r : Row, p.rows[ck]? = some r ∧ m ∈ r.cells ∧
      m.column = c.column := by
    rw [← h.view_eq] at hm
    obtain ⟨r, hr, hm⟩ := Option.bind_eq_some_iff.mp hm
    exact ⟨r, hr, (Row.cell?_eq_some_iff (h.distinct ck r hr)).mp hm⟩
  have hin : (Deletion.cell ck m).In p := ⟨r, hr, hmr, hmtomb⟩
  by_cases hpurge : (Deletion.cell ck m).Purgeable gcCutoff p
  · rcases h.mem_cells_after.mp htop'.1 with hout | hleft
    · refine hnothing _ hin hpurge ⟨c, hcol ▸ hout, hntomb, ?_⟩
      exact Cell.timestamp_le_of_rank_le (hrank ▸ hle)
    · obtain ⟨r', hr', hc, -⟩ := exists_row_of_purged hleft
      obtain rfl : r = r' := Option.some.inj (hr.symm.trans hr')
      have hdist := h.distinct ck r hr
      have hfind := (Row.cell?_eq_some_iff hdist).mpr ⟨hc, rfl⟩
      rw [(Row.cell?_eq_some_iff hdist).mpr ⟨hmr, hcol⟩] at hfind
      cases hfind
      rw [hmtomb] at hntomb
      cases hntomb
  · obtain ⟨r', hr', hmem, -⟩ := Deletion.in_purged_iff.mpr ⟨hin, hpurge⟩
    exact hgone m hrank (h.mem_cells_after.mpr
      (.inr (mem_cellsOf_writes.mpr ⟨r', hr', hmem, hcol⟩)))

/-- A row that the partition tombstone hid shows no cell afterwards. -/
theorem not_showsCell_of_tombstone (hsettled : p.TombstoneSettled gcCutoff now) (hnow : now ≤ t)
    (hmark : (viewOf before).marked ck = false) {tomb : Int64 × Int32}
    (htomb : (viewOf before).tombstone = some tomb) (hldt : tomb.2 ≤ t)
    (hold : ∀ col d, (viewOf before).cell ck col = some d → d.timestamp ≤ tomb.1) :
    ¬ (viewOf after).ShowsCell t ck c := by
  rintro ⟨⟨-, -, hshown⟩, hcell, hlive⟩
  have hntomb := ((Cell.isLiveAt_iff c t).mp hlive).1
  have htop := Lww.isTop_of_mem_argmax _ htomb
  have hold : ∀ col, ∀ d ∈ cellsOf before ck col, d.timestamp ≤ tomb.1 := by
    intro col d hd
    obtain ⟨m, hview, hm⟩ := Lww.exists_argmax_of_mem Cell.rank hd
    exact (Cell.timestamp_le_of_rank_le (hm.2 d hd)).trans (hold col m hview)
  have hc : c ∈ cellsOf after ck c.column := (Lww.isTop_of_mem_argmax _ hcell).1
  by_cases hkept : tomb ∈ tombstonesOf after
  · -- the tombstone is still the newest one, and all cells are older
    have hafter :=
      h.tombstone_of_subset (fun _ => h.tombstones_before_of_after) htop hkept
    obtain ⟨col, d, hd, hlt⟩ := hshown tomb.1 tomb.2 hafter hldt
    have hmem := h.cells_before_of_after (Lww.isTop_of_mem_argmax _ hd).1
    exact absurd hlt (not_lt.mpr (hold col d hmem))
  · rw [h.mem_tombstones_after, not_or] at hkept
    have hgroup : tomb ∈ tombstonesOf group := by
      have hmem := htop.1
      simp only [mem_tombstonesOf, h.before_iff] at hmem hkept ⊢
      exact hmem.resolve_left hkept.1
    have hptomb : p.tombstone = some tomb := by
      change p.view.tombstone = some tomb
      rw [h.view_eq]
      refine h.tombstone_of_subset (fun t' ht' => ?_) htop hgroup
      simp only [mem_tombstonesOf, h.before_iff] at ht' ⊢
      exact .inr ht'
    have hpurge : tomb.2 ≤ gcCutoff := by
      by_contra hlate
      refine hkept.2 ?_
      rw [tombstone_purged, hptomb, Option.filter_eq_some_iff]
      exact ⟨rfl, by simpa using hlate⟩
    rcases h.mem_cells_after.mp hc with hout | hleft
    · refine hnothing (.partition tomb.1 tomb.2) hptomb hpurge ⟨ck, c.column, c, hout, hntomb, ?_⟩
      exact hold c.column c (h.mem_cells_before.mpr (.inl hout))
    · -- the cell is one of the group: then the tombstone was not settled
      obtain ⟨r, hr, hmem, -⟩ := exists_row_of_purged hleft
      have hrmark : r.isTombstone = false := by
        have hpm : p.view.marked ck = false := by
          rw [h.view_eq, Bool.eq_false_iff]
          intro hm
          obtain ⟨r', hr', hrest⟩ := viewOf_marked.mp hm
          have hb := viewOf_marked.mpr ⟨r', (h.before_iff _).mpr (.inr hr'), hrest⟩
          rw [hmark] at hb
          cases hb
        simpa [view, hr] using hpm
      obtain ⟨newer, hnewer, hlt⟩ := (hsettled tomb.1 tomb.2 hptomb ck r hr hrmark).1 hpurge
        ⟨c, hmem, Cell.isLiveAt_of_le hnow hlive⟩
      have hb := h.mem_cells_before.mpr (.inr (h.mem_group_of_row hr hnewer))
      exact absurd hlt (not_lt.mpr (hold _ newer hb))

theorem not_showsCell_of_hides (hsettled : p.TombstoneSettled gcCutoff now) (hnow : now ≤ t)
    (hhides : (viewOf before).Hides t ck c) : ¬ (viewOf after).ShowsCell t ck c := by
  cases hmark : (viewOf before).marked ck with
  | true => exact h.not_showsCell_of_marked hnothing hmark
  | false =>
    rcases hhides with hm | ⟨tomb, htomb, hldt, hold⟩ | ⟨d, hd, htomb⟩
    · rw [hmark] at hm
      cases hm
    · exact h.not_showsCell_of_tombstone hnothing hsettled hnow hmark htomb hldt hold
    · exact h.not_showsCell_of_cell hnothing hd htomb

end

end PurgedRead

/-! ## Reads before and after -/

namespace Store

variable {e e' : Store} {groupIds : List Nat} {keyspace table : String}

theorem mem_outside {w : Write} : w ∈ e.outside groupIds keyspace table pk ↔
      (∃ p, (e.memtables.activeData (keyspace ++ "." ++ table)).getPartition pk = some p ∧
        w ∈ p.writes) ∨
      ∃ t ∈ e.sstables, t.generation ∉ groupIds ∧ t.keyspace = keyspace ∧ t.table = table ∧
        ∃ p, t.getPartition pk = some p ∧ w ∈ p.writes := by
  simp only [outside, outsidePartitions, mem_flatMap, mem_append, Option.mem_toList,
    mem_filterMap, mem_filter, decide_eq_true_eq]
  grind

/-- No partition is empty or lists a column twice, and the SSTables list each key once. -/
structure Readable (e : Store) (keyspace table : String) : Prop where
  memtable : ∀ pk, ∀ p ∈ (e.memtables.activeData (keyspace ++ "." ++ table)).getPartition pk,
    p.writes ≠ [] ∧ p.DistinctColumns
  keys : ∀ t ∈ e.sstables, (t.partitions.map Prod.fst).Nodup
  partitions : ∀ t ∈ e.sstables, ∀ x ∈ t.partitions, x.2.writes ≠ [] ∧ x.2.DistinctColumns

theorem Compactable.readable (h : e.Compactable groupIds keyspace table) :
    e.Readable keyspace table :=
  ⟨h.memtable, h.keys, h.partitions⟩

theorem distinctColumns_ledger (h : ∀ x ∈ s, x.2.DistinctColumns) :
    (Source.ledger s).DistinctColumns := by
  intro op hop
  obtain ⟨x, hx, hop⟩ := mem_flatMap.mp hop
  obtain ⟨w, hw, rfl⟩ := mem_map.mp hop
  exact (h x hx).writes w hw

/-- A read shows what the memtable and all SSTables of the table hold. -/
theorem Readable.exists_shows (h : e.Readable keyspace table) (pk : Bytes) :
    ∃ ws, Shows (e.read keyspace table pk) ws ∧ ∀ w, w ∈ ws ↔ w ∈ e.outside [] keyspace table pk := by
  let data := e.memtables.activeData (keyspace ++ "." ++ table)
  have hmemKeys : (data.iterPartitions.map Prod.fst).Nodup := TreeMap.nodup_map_fst_toList _
  have hmemParts : ∀ x ∈ data.iterPartitions, x.2.writes ≠ [] ∧ x.2.DistinctColumns :=
    fun x hx => h.memtable x.1 x.2 (ExtTreeMap.mem_toList_iff_getElem?_eq_some.mp hx)
  have hlookup : ∀ k, data.iterPartitions.lookup k = data.getPartition k := fun k => by
    rw [MemtableData.iterPartitions, TreeMap.lookup_toList, MemtableData.getPartition]
  have hmem : data.Records (Source.ledger data.iterPartitions) := fun k => by
    rw [← hlookup k]
    exact Source.lookup_eq_partitionOf hmemKeys (fun x hx => (hmemParts x hx).1) k
  have htables : ∀ t ∈ e.sstables, t.Records (Source.ledger t.partitions) ∧
      (Source.ledger t.partitions).DistinctColumns := fun t ht =>
    ⟨Source.lookup_eq_partitionOf (h.keys t ht) fun x hx => (h.partitions t ht x hx).1,
      distinctColumns_ledger fun x hx => (h.partitions t ht x hx).2⟩
  have hshows : Shows (e.read keyspace table pk) _ := shows_read_of_records hmem
    (distinctColumns_ledger fun x hx => (hmemParts x hx).2) htables
  refine ⟨_, hshows, fun w => ?_⟩
  rw [mem_append, mem_tableWrites, mem_outside, Source.writesTo_ledger hmemKeys, hlookup]
  refine or_congr ?_ ?_
  · cases data.getPartition pk <;> simp
  · simp only [mem_reverse, not_mem_nil, not_false_eq_true, true_and]
    refine exists_congr fun t => and_congr_right fun ht => ?_
    rw [Source.writesTo_ledger (h.keys t ht), SSTable.getPartition]
    cases t.partitions.lookup pk <;> simp

/-- A merge of the group holds the operations that it adds to those outside. -/
theorem Compactable.exists_group (h : e.Compactable groupIds keyspace table) (pk : Bytes) :
    ∃ group, (mergeSources (e.groupSources groupIds))[pk]? = partitionOf group ∧
      (∀ w ∈ group, w.DistinctColumns) ∧
      ∀ w, w ∈ e.outside [] keyspace table pk ↔
        w ∈ e.outside groupIds keyspace table pk ∨ w ∈ group := by
  have hiter : ∀ t ∈ e.sstables, t.generation ∈ groupIds → t.iterPartitions = t.partitions := by
    intro t ht hgen
    rw [SSTable.iterPartitions, takeWhile_eq_self_iff]
    intro x hx
    simpa using (h.group t ht hgen).2.2 x hx
  have hsource : ∀ x, x ∈ (e.groupSources groupIds).flatten ↔
      ∃ t ∈ e.sstables, t.generation ∈ groupIds ∧ x ∈ t.partitions := by
    intro x
    simp only [groupSources, mem_flatten, mem_map, mem_filter, decide_eq_true_eq]
    constructor
    · rintro ⟨_, ⟨t, ⟨ht, hgen⟩, rfl⟩, hx⟩
      exact ⟨t, ht, hgen, hiter t ht hgen ▸ hx⟩
    · rintro ⟨t, ht, hgen, hx⟩
      exact ⟨_, ⟨t, ⟨ht, hgen⟩, rfl⟩, (hiter t ht hgen).symm ▸ hx⟩
  have hparts : ∀ x ∈ (e.groupSources groupIds).flatten, x.2.writes ≠ [] ∧ x.2.DistinctColumns := by
    intro x hx
    obtain ⟨t, ht, -, hx⟩ := (hsource x).mp hx
    exact h.partitions t ht x hx
  obtain ⟨group, hgroup, hmem⟩ := mergeOf_mergeSources (e.groupSources groupIds)
    (fun s hs x hx => (hparts x (mem_flatten.mpr ⟨s, hs, hx⟩)).1) pk
  refine ⟨group, hgroup, fun w hw => ?_, fun w => ?_⟩
  · obtain ⟨x, hx, -, hw⟩ := (hmem w).mp hw
    exact (hparts x hx).2.writes w hw
  · have hbrings : w ∈ group ↔ ∃ t ∈ e.sstables, t.generation ∈ groupIds ∧
        ∃ p, t.getPartition pk = some p ∧ w ∈ p.writes := by
      rw [hmem]
      constructor
      · rintro ⟨x, hx, rfl, hw⟩
        obtain ⟨t, ht, hgen, hx⟩ := (hsource x).mp hx
        exact ⟨t, ht, hgen, x.2, (TreeMap.lookup_eq_some_iff (h.keys t ht)).mpr hx, hw⟩
      · rintro ⟨t, ht, hgen, p, hp, hw⟩
        have hx := (TreeMap.lookup_eq_some_iff (h.keys t ht)).mp hp
        exact ⟨(pk, p), (hsource _).mpr ⟨t, ht, hgen, hx⟩, rfl, hw⟩
    rw [hbrings, mem_outside, mem_outside, or_assoc]
    refine or_congr_right ?_
    constructor
    · rintro ⟨t, ht, -, hks, htab, hp⟩
      by_cases hgen : t.generation ∈ groupIds
      · exact .inr ⟨t, ht, hgen, hp⟩
      · exact .inl ⟨t, ht, hgen, hks, htab, hp⟩
    · rintro (⟨t, ht, -, hks, htab, hp⟩ | ⟨t, ht, hgen, hp⟩)
      · exact ⟨t, ht, by simp, hks, htab, hp⟩
      · obtain ⟨hks, htab, -⟩ := h.group t ht hgen
        exact ⟨t, ht, by simp, hks, htab, hp⟩

/-! ## The compacted store -/

section Compacted

variable {outs : List SSTable}

/-- What the store is after a compaction. -/
structure Compacted (e e' : Store) (options : CompactionOptions) (now : Int32) (groupIds : List Nat)
    (keyspace table : String) (outs : List SSTable) : Prop where
  memtables : e'.memtables = e.memtables
  sstables : e'.sstables = e.sstables.filter (fun t => t.generation ∉ groupIds) ++ outs
  partitions : (outs.map SSTable.partitions).flatten =
    mergePartitions (e.groupSources groupIds) options.gcGraceSeconds now
  names : ∀ t ∈ outs, t.keyspace = keyspace ∧ t.table = table ∧ e.nextGeneration ≤ t.generation

theorem Compactable.compacted (h : e.Compactable groupIds keyspace table)
    (hok : e.compactGroup contentLayer options now fails groupIds = (e', .ok ())) :
    ∃ outs, Compacted e e' options now groupIds keyspace table outs := by
  obtain ⟨hmem, outs, htables, hparts, hnames⟩ := Store.compactGroup_ok hok
  refine ⟨outs, hmem, htables, hparts, fun t ht => ?_⟩
  obtain ⟨hgen, first, hfirst, hid, hks, htab⟩ := hnames t ht
  have hgroup := h.group first hfirst hid
  exact ⟨hks.trans hgroup.1, htab.trans hgroup.2.1, hgen⟩

theorem nodup_keys_mergePartitions (sources : List Source) (gcGraceSeconds now : Int32) :
    ((mergePartitions sources gcGraceSeconds now).map Prod.fst).Nodup :=
  TreeMap.nodup_map_fst_toList _

namespace Compacted

section

variable (hc : Compacted e e' options now groupIds keyspace table outs)

include hc

theorem nodup_keys {t : SSTable} (ht : t ∈ outs) : (t.partitions.map Prod.fst).Nodup := by
  have hsub : t.partitions.Sublist (outs.map SSTable.partitions).flatten :=
    sublist_flatten_of_mem (mem_map_of_mem ht)
  have hall := nodup_keys_mergePartitions (e.groupSources groupIds) options.gcGraceSeconds now
  rw [← hc.partitions] at hall
  exact hall.sublist (hsub.map _)

theorem getPartition_iff {p' : PartitionData} : (∃ t ∈ outs, t.getPartition pk = some p') ↔
      ∃ p, (mergeSources (e.groupSources groupIds))[pk]? = some p ∧
        p.purge (now - options.gcGraceSeconds) now = some p' := by
  rw [← Option.bind_eq_some_iff, ← lookup_mergePartitions]
  have hall := nodup_keys_mergePartitions (e.groupSources groupIds) options.gcGraceSeconds now
  rw [TreeMap.lookup_eq_some_iff hall, ← hc.partitions]
  simp only [mem_flatten, mem_map, exists_exists_and_eq_and]
  exact exists_congr fun t => and_congr_right fun ht =>
    TreeMap.lookup_eq_some_iff (hc.nodup_keys ht)

/-- A tombstone is in the output exactly if it is in the merged group and is not purged. -/
theorem exists_in_iff (h : e.Compactable groupIds keyspace table)
    (hp : (mergeSources (e.groupSources groupIds))[pk]? = some p) (d : Deletion) :
    (∃ t ∈ e'.sstables, e.nextGeneration ≤ t.generation ∧ ∃ p' ∈ t.getPartition pk, d.In p') ↔
      d.In p ∧ ¬ d.Purgeable (now - options.gcGraceSeconds) p := by
  have hleft : d.In (p.purged (now - options.gcGraceSeconds) now) ↔
      d.In p ∧ ¬ d.Purgeable (now - options.gcGraceSeconds) p := Deletion.in_purged_iff
  rw [← hleft]
  constructor
  · rintro ⟨t, ht, hgen, p', hp', hin⟩
    rw [hc.sstables, mem_append] at ht
    have hout : t ∈ outs := by
      refine ht.resolve_left fun hold => ?_
      have hlt := h.gens t (mem_filter.mp hold).1
      omega
    obtain ⟨q, hq, hpurge⟩ := hc.getPartition_iff.mp ⟨t, hout, hp'⟩
    obtain rfl : p = q := Option.some.inj (hp.symm.trans hq)
    rwa [(purge_eq_some_iff.mp hpurge).1] at hin
  · intro hin
    have hne : (p.purged (now - options.gcGraceSeconds) now).writes ≠ [] := by
      cases d with
      | partition ts ldt => exact ne_nil_of_mem (tombstone_mem_writes.mpr hin)
      | row ck ldt | cell ck c =>
        obtain ⟨r, hr, -⟩ := hin
        exact ne_nil_of_mem (row_mem_writes.mpr ((keyed _ ck r hr).symm ▸ hr))
    obtain ⟨t, ht, hp'⟩ := hc.getPartition_iff.mpr ⟨p, hp, purge_eq_some_iff.mpr ⟨rfl, hne⟩⟩
    refine ⟨t, ?_, (hc.names t ht).2.2, _, hp', hin⟩
    rw [hc.sstables]
    exact mem_append_right _ ht

theorem readable (h : e.Compactable groupIds keyspace table) :
    e'.Readable keyspace table := by
  refine ⟨hc.memtables ▸ h.memtable, fun t ht => ?_, fun t ht x hx => ?_⟩ <;>
    rw [hc.sstables, mem_append] at ht
  · rcases ht with hold | hout
    · exact h.keys t (mem_filter.mp hold).1
    · exact hc.nodup_keys hout
  · rcases ht with hold | hout
    · exact h.partitions t (mem_filter.mp hold).1 x hx
    · have hlookup := (TreeMap.lookup_eq_some_iff (hc.nodup_keys hout)).mpr hx
      obtain ⟨p, hp, hpurge⟩ := hc.getPartition_iff.mp ⟨t, hout, hlookup⟩
      obtain ⟨hx2, hne⟩ := purge_eq_some_iff.mp hpurge
      obtain ⟨group, hgroup, hdist, -⟩ := h.exists_group x.1
      obtain ⟨-, rfl⟩ := partitionOf_eq_some (hgroup.symm.trans hp)
      rw [hx2]
      exact ⟨hne, (distinctColumns_ofWrites hdist).purged⟩

/-- After the compaction a read shows what is outside the group and what is left of the group. -/
theorem mem_outside_iff {group : List Write}
    (hgroup : (mergeSources (e.groupSources groupIds))[pk]? = partitionOf group) (w : Write) :
    w ∈ e'.outside [] keyspace table pk ↔ w ∈ e.outside groupIds keyspace table pk ∨
      w ∈ ((ofWrites group).purged (now - options.gcGraceSeconds) now).writes := by
  have hleft : (∃ t ∈ outs, ∃ p', t.getPartition pk = some p' ∧ w ∈ p'.writes) ↔
      w ∈ ((ofWrites group).purged (now - options.gcGraceSeconds) now).writes := by
    constructor
    · rintro ⟨t, ht, p', hp', hw⟩
      obtain ⟨p, hp, hpurge⟩ := hc.getPartition_iff.mp ⟨t, ht, hp'⟩
      obtain ⟨-, rfl⟩ := partitionOf_eq_some (hgroup.symm.trans hp)
      rwa [(purge_eq_some_iff.mp hpurge).1] at hw
    · intro hw
      have hsome : (mergeSources (e.groupSources groupIds))[pk]? =
          some (ofWrites group) := by
        rw [hgroup]
        cases group with
        | cons => rfl
        | nil =>
          -- an empty partition has nothing left
          have hempty : ((ofWrites []).purged (now - options.gcGraceSeconds) now).writes = [] := by
            rw [writes_eq_nil_iff]
            exact ⟨rfl, rfl⟩
          rw [hempty] at hw
          cases hw
      obtain ⟨t, ht, hp'⟩ := hc.getPartition_iff.mpr
        ⟨_, hsome, purge_eq_some_iff.mpr ⟨rfl, ne_nil_of_mem hw⟩⟩
      exact ⟨t, ht, _, hp', hw⟩
  rw [← hleft, mem_outside, mem_outside, or_assoc, hc.memtables, hc.sstables]
  refine or_congr_right ?_
  simp only [mem_append, mem_filter, decide_eq_true_eq, not_mem_nil, not_false_eq_true, true_and]
  constructor
  · rintro ⟨t, ⟨ht, hgen⟩ | hout, hks, htab, hp⟩
    · exact .inl ⟨t, ht, hgen, hks, htab, hp⟩
    · exact .inr ⟨t, hout, hp⟩
  · rintro (⟨t, ht, hgen, hks, htab, hp⟩ | ⟨t, hout, hp⟩)
    · exact ⟨t, .inl ⟨ht, hgen⟩, hks, htab, hp⟩
    · exact ⟨t, .inr hout, (hc.names t hout).1, (hc.names t hout).2.1, hp⟩

end

end Compacted

end Compacted

/-! ## Overlap-safe purging -/

/-- Let a compaction succeed whose purge is invisible within the merged group. It keeps every
tombstone that shadows data outside the group, and what a deletion hid stays hidden, exactly when no
tombstone past its grace period shadows anything outside the group. -/
theorem keepsShadowing_and_staysHidden_iff {options : CompactionOptions} {now : Int32}
    {fails : Nat → Bool} (hcomp : e.Compactable groupIds keyspace table)
    (hagree : e.TombstonesAgree keyspace table)
    (hsettled : ∀ (pk : Bytes) (p : PartitionData),
      (mergeSources (e.groupSources groupIds))[pk]? = some p →
        p.TombstoneSettled (now - options.gcGraceSeconds) now)
    (hok : e.compactGroup contentLayer options now fails groupIds = (e', .ok ())) :
    (e.KeepsShadowing groupIds keyspace table e' ∧ e.StaysHidden keyspace table now e') ↔
      e.NothingShadowed groupIds keyspace table (now - options.gcGraceSeconds) := by
  obtain ⟨outs, hc⟩ := hcomp.compacted hok
  constructor
  · rintro ⟨hkeeps, -⟩ pk p hp d hin hpurge hshadows
    have hout := (hc.exists_in_iff hcomp hp d).mp (hkeeps pk p hp d hin hshadows)
    exact hout.2 hpurge
  · intro hnothing
    refine ⟨fun pk p hp d hin hshadows => ?_, fun t ht pk ck c hhides hshown => ?_⟩
    · exact (hc.exists_in_iff hcomp hp d).mpr ⟨hin, fun h => hnothing pk p hp d hin h hshadows⟩
    · obtain ⟨before, hbefore, hbmem⟩ := hcomp.readable.exists_shows pk
      obtain ⟨after, hafter, hamem⟩ := (hc.readable hcomp).exists_shows pk
      obtain ⟨group, hgroup, hdist, hsplit⟩ := hcomp.exists_group pk
      have hread : PurgedRead (now - options.gcGraceSeconds) now
          (e.outside groupIds keyspace table pk) group before after (.ofWrites group) :=
        { distinct := distinctColumns_ofWrites hdist
          view_eq := view_ofWrites hdist
          before_iff := fun w => (hbmem w).trans (hsplit w)
          after_iff := fun w => (hamem w).trans (hc.mem_outside_iff hgroup w)
          agree := fun t ht t' ht' => by
            simp only [mem_tombstonesOf, hbmem] at ht ht'
            exact hagree pk t (mem_tombstonesOf.mpr ht) t' (mem_tombstonesOf.mpr ht') }
      -- a key that the group does not have leaves an empty partition, without any tombstone
      cases group with
      | nil =>
        exact hread.not_showsCell_of_hides (fun d hin => absurd hin d.not_in_empty)
          (fun _ _ htomb => nomatch htomb) ht (hbefore.hides hhides) (hafter.showsCell hshown)
      | cons w ws =>
        exact hread.not_showsCell_of_hides (hnothing pk _ hgroup) (hsettled pk _ hgroup) ht
          (hbefore.hides hhides) (hafter.showsCell hshown)

end Store

/-! ## A tombstone purged away from the data it shadows -/

/-- A row with one cell in column `v`. -/
def oneCellRow (c : Cell) : Row := ⟨[], [c], false, none⟩

/-- SSTable 1 has a value of timestamp 5 and SSTable 2 the tombstone of timestamp 10 that deletes
it. SSTable 3 holds another partition. -/
def deletedElsewhere : Store :=
  { Store.new {} 1000 with
    sstables :=
      [⟨"ks", "t", 1, [([1], .ofWrites [.row (oneCellRow ⟨"v", some [7], 5, 0, none, false⟩)])]⟩,
       ⟨"ks", "t", 2, [([1], .ofWrites [.row (oneCellRow ⟨"v", none, 10, 0, some 100, true⟩)])]⟩,
       ⟨"ks", "t", 3, [([2], .ofWrites [.row (oneCellRow ⟨"v", some [8], 5, 0, none, false⟩)])]⟩]
    nextGeneration := 4 }

/-- SSTables 2 and 3 compacted in second 1000, with ten seconds of grace. -/
def compactedElsewhere : Store × Except EngineError Unit :=
  deletedElsewhere.compactGroup contentLayer ⟨10, none⟩ 1000 (fun _ => false) [2, 3]

theorem compactable_deletedElsewhere (groupIds : List Nat) :
    deletedElsewhere.Compactable groupIds "ks" "t" where
  memtable pk p hp := by cases (show none = some p from hp)
  keys := by decide
  partitions t ht x hx := by
    have hrow : ∀ c : Cell, (ofWrites [.row (oneCellRow c)]).DistinctColumns :=
      fun c => distinctColumns_ofWrites (by simp [Write.DistinctColumns,
        Row.DistinctColumns, oneCellRow])
    have hne : ∀ t ∈ deletedElsewhere.sstables, ∀ y ∈ t.partitions, y.2.writes ≠ [] := by
      decide
    refine ⟨hne t ht x hx, ?_⟩
    simp only [deletedElsewhere, mem_cons, not_mem_nil, or_false] at ht
    rcases ht with rfl | rfl | rfl <;> obtain rfl := mem_singleton.mp hx <;> exact hrow _
  gens := by decide
  group t ht _ := by
    have hnames : ∀ t ∈ deletedElsewhere.sstables,
        t.keyspace = "ks" ∧ t.table = "t" ∧ ∀ x ∈ t.partitions, x.1 ≠ [] := by
      decide
    exact hnames t ht

theorem no_tombstone_deletedElsewhere :
    ∀ t ∈ deletedElsewhere.sstables, ∀ x ∈ t.partitions, x.2.tombstone = none := by
  decide

theorem tombstonesAgree_deletedElsewhere : deletedElsewhere.TombstonesAgree "ks" "t" := by
  intro pk t ht
  rw [mem_tombstonesOf, Store.mem_outside] at ht
  rcases ht with ⟨p, hp, -⟩ | ⟨table, htable, -, -, -, p, hp, hw⟩
  · cases (show none = some p from hp)
  · have hkeys := (compactable_deletedElsewhere []).keys table htable
    have hmem := (TreeMap.lookup_eq_some_iff hkeys).mp hp
    rw [tombstone_mem_writes, no_tombstone_deletedElsewhere table htable _ hmem] at hw
    cases hw

theorem settled_deletedElsewhere : ∀ (pk : Bytes) (p : PartitionData),
    (mergeSources (deletedElsewhere.groupSources [2, 3]))[pk]? = some p →
      p.TombstoneSettled (1000 - 10) 1000 := by
  intro pk p hp ts ldt htomb
  have hnone : ∀ x ∈ (mergeSources (deletedElsewhere.groupSources [2, 3])).toList,
      x.2.tombstone = none := by
    decide
  rw [hnone (pk, p) (ExtTreeMap.mem_toList_iff_getElem?_eq_some.mpr hp)] at htomb
  cases htomb

theorem keepsShadowing_and_staysHidden_iff_deletedElsewhere :
    (deletedElsewhere.KeepsShadowing [2, 3] "ks" "t" compactedElsewhere.1 ∧
      deletedElsewhere.StaysHidden "ks" "t" 1000 compactedElsewhere.1) ↔
      deletedElsewhere.NothingShadowed [2, 3] "ks" "t" (1000 - 10) :=
  @Store.keepsShadowing_and_staysHidden_iff deletedElsewhere compactedElsewhere.1 [2, 3] "ks" "t"
    ⟨10, none⟩ 1000 (fun _ => false) (compactable_deletedElsewhere _)
    tombstonesAgree_deletedElsewhere settled_deletedElsewhere
    (Prod.ext rfl (by decide +kernel))

/-- The grace period of the tombstone is over, so it goes, and a read shows the value of SSTable 1
again. -/
theorem not_staysHidden_deletedElsewhere :
    ¬ (deletedElsewhere.KeepsShadowing [2, 3] "ks" "t" compactedElsewhere.1 ∧
      deletedElsewhere.StaysHidden "ks" "t" 1000 compactedElsewhere.1) := by
  rintro ⟨-, hstays⟩
  have hread : ∃ p ∈ deletedElsewhere.read "ks" "t" [1],
      p.view.cell [] "v" = some ⟨"v", none, 10, 0, some 100, true⟩ := by
    decide
  obtain ⟨p, hp, hcell⟩ := hread
  exact hstays 1000 le_rfl [1] [] ⟨"v", some [7], 5, 0, none, false⟩
    ⟨p, hp, .inr ⟨_, hcell, rfl⟩⟩ (by decide +kernel)

end CassandraVerified.Storage
