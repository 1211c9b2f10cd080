import CassandraVerified.Storage.Ledger
import CassandraVerified.Storage.Proofs.HistoryProofs

/-!
# Proofs: memtables, SSTables and reads by their ledgers
-/

namespace CassandraVerified.Storage

open List
open Std (ExtTreeMap)
open TreeMap PartitionData

variable {sep : Char} {a : List Char} {l : Ledger} {p : PartitionData} {d : MemtableData}
  {ws : List Write}

theorem splitChars_append (h : sep ∉ a) (b : List Char) :
    splitChars sep (a ++ sep :: b) = some (a, b) := by
  induction a with
  | nil => simp [splitChars]
  | cons c a ih =>
    obtain ⟨hc, ha⟩ := ne_and_not_mem_of_not_mem_cons h
    simp [splitChars, Ne.symm hc, ih ha]

theorem splitChars_eq_some {l b : List Char} (h : splitChars sep l = some (a, b)) :
    l = a ++ sep :: b ∧ sep ∉ a := by
  induction l generalizing a with
  | nil => exact absurd h (by simp [splitChars])
  | cons c l ih =>
    rw [splitChars] at h
    split at h
    · next hc =>
      obtain ⟨rfl, rfl⟩ : [] = a ∧ l = b := by simpa using h
      exact ⟨by rw [hc, nil_append], not_mem_nil⟩
    · next hc =>
      obtain ⟨⟨a', b'⟩, hsplit, heq⟩ := Option.map_eq_some_iff.mp h
      obtain ⟨rfl, rfl⟩ : c :: a' = a ∧ b' = b := by simpa using heq
      obtain ⟨rfl, hnot⟩ := ih hsplit
      exact ⟨rfl, not_mem_cons_of_ne_of_not_mem (Ne.symm hc) hnot⟩

theorem exists_splitChars_of_mem {l : List Char} (h : sep ∈ l) :
    ∃ p, splitChars sep l = some p := by
  induction l with
  | nil => exact absurd h (by simp)
  | cons c l ih =>
    rw [splitChars]
    split
    · exact ⟨_, rfl⟩
    · next hc =>
      obtain ⟨p, hp⟩ := ih ((mem_cons.mp h).resolve_left (Ne.symm hc))
      exact ⟨_, by rw [hp]; rfl⟩

theorem toList_cfName (keyspace table : String) :
    (keyspace ++ "." ++ table).toList = keyspace.toList ++ '.' :: table.toList := by
  simp

theorem splitCfName_cfName {keyspace table : String} (h : '.' ∉ keyspace.toList) :
    splitCfName (keyspace ++ "." ++ table) = (keyspace, table) := by
  rw [splitCfName, splitOnce, toList_cfName, splitChars_append h]
  simp

theorem cfName_inj {keyspace table keyspace' table' : String} (h : '.' ∉ keyspace.toList)
    (h' : '.' ∉ keyspace'.toList) (hcf : keyspace ++ "." ++ table = keyspace' ++ "." ++ table') :
    keyspace = keyspace' ∧ table = table' := by
  have hsplit := congrArg splitCfName hcf
  rw [splitCfName_cfName h, splitCfName_cfName h', Prod.mk.injEq] at hsplit
  exact hsplit

theorem splitCfName_spec (keyspace table : String) :
    '.' ∉ (splitCfName (keyspace ++ "." ++ table)).1.toList ∧
      (splitCfName (keyspace ++ "." ++ table)).1 ++ "." ++
        (splitCfName (keyspace ++ "." ++ table)).2 = keyspace ++ "." ++ table := by
  have hdot : '.' ∈ (keyspace ++ "." ++ table).toList := by simp
  obtain ⟨⟨a, b⟩, hsplit⟩ := exists_splitChars_of_mem hdot
  rw [splitCfName, splitOnce, hsplit]
  refine ⟨by simpa using (splitChars_eq_some hsplit).2, String.toList_inj.mp ?_⟩
  rw [toList_cfName, (splitChars_eq_some hsplit).1]
  simp

namespace Ledger

@[simp] theorem writesTo_nil (pk : Bytes) : writesTo [] pk = [] := rfl

@[simp] theorem writesTo_append (l l' : Ledger) (pk : Bytes) :
    writesTo (l ++ l') pk = l.writesTo pk ++ l'.writesTo pk := by
  simp [writesTo]

theorem writesTo_map (key pk : Bytes) (ws : List Write) :
    writesTo (ws.map (key, ·)) pk = if key = pk then ws else [] := by
  by_cases h : key = pk
  · simp [writesTo, h, filter_map, Function.comp_def]
  · simp [writesTo, h, filter_map, Function.comp_def]

theorem mem_writesTo {pk : Bytes} {w : Write} : w ∈ l.writesTo pk ↔ (pk, w) ∈ l := by
  simp only [writesTo, mem_map, mem_filter, decide_eq_true_eq]
  constructor
  · rintro ⟨⟨key, w'⟩, ⟨hmem, rfl⟩, rfl⟩
    exact hmem
  · exact fun h => ⟨(pk, w), ⟨h, rfl⟩, rfl⟩

theorem DistinctColumns.writesTo (h : l.DistinctColumns) (pk : Bytes) :
    ∀ w ∈ l.writesTo pk, w.DistinctColumns :=
  fun _ hw => h _ (mem_writesTo.mp hw)

end Ledger

namespace PartitionData

theorem getElem?_foldl_applyRow (p : PartitionData) {rows : List Row}
    (h : (rows.map Row.clusteringKey).Nodup) (ck : Bytes) :
    (rows.foldl applyRow p).rows[ck]? =
      match rows.find? (·.clusteringKey = ck) with
      | some r => mergedRow r p.rows[ck]?
      | none => p.rows[ck]? := by
  induction rows generalizing p with
  | nil => rfl
  | cons row rows ih =>
    obtain ⟨hnew, hnodup⟩ := nodup_cons.mp h
    rw [foldl_cons, ih _ hnodup, getElem?_applyRow]
    by_cases hck : row.clusteringKey = ck
    · have hnone : rows.find? (·.clusteringKey = ck) = none := by
        rw [List.find?_eq_none]
        intro r hr hkey
        refine hnew (mem_map.mpr ⟨r, hr, ?_⟩)
        rw [hck]
        simpa using hkey
      simp [hck, hnone]
    · simp [hck]

theorem tombstone_foldl_applyRow (p : PartitionData) (rows : List Row) :
    (rows.foldl applyRow p).tombstone = p.tombstone := by
  induction rows generalizing p with
  | nil => rfl
  | cons row rows ih => rw [foldl_cons, ih, tombstone_applyRow]

theorem nodup_clusteringKey_rowList (p : PartitionData) :
    (p.rowList.map Row.clusteringKey).Nodup := by
  have hkeys : p.rowList.map Row.clusteringKey = p.rows.keys := by
    rw [rowList, TreeMap.values, map_map, ← ExtTreeMap.map_fst_toList_eq_keys]
    refine map_congr_left fun e he => ?_
    exact p.keyed e.1 e.2 (ExtTreeMap.mem_toList_iff_getElem?_eq_some.mp he)
  rw [hkeys]
  exact ExtTreeMap.nodup_keys

theorem find?_rowList (p : PartitionData) (ck : Bytes) :
    p.rowList.find? (·.clusteringKey = ck) = p.rows[ck]? := by
  cases hr : p.rows[ck]? with
  | none =>
    rw [List.find?_eq_none]
    intro r hmem hkey
    obtain ⟨ck', hr'⟩ := mem_values.mp hmem
    obtain rfl : ck' = ck := (p.keyed _ _ hr').symm.trans (by simpa using hkey)
    exact absurd (hr.symm.trans hr') (by simp)
  | some r =>
    obtain ⟨r', hfind⟩ : ∃ r', p.rowList.find? (·.clusteringKey = ck) = some r' :=
      Option.isSome_iff_exists.mp (List.find?_isSome.mpr
        ⟨r, mem_values.mpr ⟨ck, hr⟩, by simpa using p.keyed _ _ hr⟩)
    obtain ⟨ck', hr'⟩ := mem_values.mp (mem_of_find?_eq_some hfind)
    obtain rfl : ck' = ck := (p.keyed _ _ hr').symm.trans (by simpa using List.find?_some hfind)
    rw [hfind, ← hr', hr]

theorem ext_of_tombstone {q : PartitionData} (hrows : ∀ ck : Bytes, p.rows[ck]? = q.rows[ck]?)
    (ht : p.tombstone = q.tombstone) : p = q := by
  have hrows' : p.rows = q.rows := ExtTreeMap.ext_getElem? hrows
  have hboth : p.tombstoneTimestamp = q.tombstoneTimestamp ∧
      p.tombstoneLocalDeletionTime = q.tombstoneLocalDeletionTime := by
    cases hp : p.tombstone with
    | none =>
      have hq := ht.symm.trans hp
      rw [tombstone_eq_none] at hp hq
      have hpair := p.paired
      have hpair' := q.paired
      rw [hp] at hpair
      rw [hq] at hpair'
      exact ⟨hp.trans hq.symm, (Option.isNone_iff_eq_none.mp (by simpa using hpair.symm)).trans
        (Option.isNone_iff_eq_none.mp (by simpa using hpair'.symm)).symm⟩
    | some t =>
      obtain ⟨hts, hldt⟩ := tombstone_eq_some.mp hp
      obtain ⟨hts', hldt'⟩ := tombstone_eq_some.mp (ht.symm.trans hp)
      exact ⟨hts.trans hts'.symm, hldt.trans hldt'.symm⟩
  cases p
  cases q
  simp only [mk.injEq]
  exact ⟨hrows', hboth⟩

theorem applyAll_append (p : PartitionData) (ws us : List Write) :
    p.applyAll (ws ++ us) = (p.applyAll ws).applyAll us := foldl_append

theorem applyAll_map_row (p : PartitionData) (rows : List Row) :
    p.applyAll (rows.map .row) = rows.foldl applyRow p := foldl_map

theorem ofWrites_writes (p : PartitionData) : ofWrites p.writes = p := by
  have hrows (ck : Bytes) : (p.rowList.foldl applyRow empty).rows[ck]? = p.rows[ck]? := by
    rw [getElem?_foldl_applyRow _ p.nodup_clusteringKey_rowList, find?_rowList]
    cases p.rows[ck]? with
    | none => simp
    | some r => simp [mergedRow]
  have htomb : (p.rowList.foldl applyRow empty).tombstone = none := by
    rw [tombstone_foldl_applyRow]
    rfl
  rw [ofWrites, writes, applyAll_append, applyAll_map_row]
  cases ht : p.tombstone with
  | none => exact ext_of_tombstone hrows (htomb.trans ht.symm)
  | some t =>
    refine ext_of_tombstone (fun ck => ?_) ?_
    · rw [← hrows]
      exact congrArg (·[ck]?) (rows_setTombstone _ _ _)
    · refine (tombstone_setTombstone _ _ _).trans ?_
      rw [htomb, ht]
      rfl

theorem DistinctColumns.writes (h : p.DistinctColumns) : ∀ w ∈ p.writes, w.DistinctColumns := by
  intro w hw
  rcases mem_append.mp hw with hw | hw
  · obtain ⟨r, hr, rfl⟩ := mem_map.mp hw
    obtain ⟨ck, hck⟩ := mem_values.mp hr
    exact h ck r hck
  · obtain ⟨t, -, rfl⟩ := mem_map.mp hw
    trivial

theorem viewOf_writes (h : p.DistinctColumns) : viewOf p.writes = p.view := by
  rw [← view_ofWrites h.writes, ofWrites_writes]

end PartitionData

theorem foldl_applyRow_rowList {q : PartitionData} (hrows : ∀ ck : Bytes, q.rows[ck]? = none)
    (htomb : q.tombstone = p.tombstone) : p.rowList.foldl .applyRow q = p := by
  refine ext_of_tombstone (fun ck => ?_) ?_
  · rw [getElem?_foldl_applyRow _ p.nodup_clusteringKey_rowList, p.find?_rowList,
      hrows]
    cases p.rows[ck]? <;> rfl
  · rw [tombstone_foldl_applyRow, htomb]

theorem mergeRead_eq_applyAll (existing p : PartitionData) :
    Engine.mergeRead (some existing) p = existing.applyAll p.writes := by
  rw [writes, applyAll_append, applyAll_map_row]
  unfold Engine.mergeRead tombstone
  cases p.tombstoneTimestamp with
  | none => rfl
  | some ts => cases p.tombstoneLocalDeletionTime <;> rfl

namespace MemtableData

theorem getPartition_write (d : MemtableData) (key pk : Bytes) (w : Write) :
    (d.write key w).getPartition pk =
      if key = pk then some (((d.getPartition key).getD .empty).apply w)
      else d.getPartition pk := by
  cases w with
  | row r =>
    simp only [write, MemtableData.apply, getPartition, ExtTreeMap.getElem?_alter,
      Std.compare_eq_iff_eq, PartitionData.apply]
  | tombstone ts ldt =>
    simp only [write, setPartitionTombstone, getPartition, ExtTreeMap.getElem?_alter,
      Std.compare_eq_iff_eq, PartitionData.apply]

theorem records_empty : empty.Records [] := by
  intro pk
  simp [getPartition, empty, partitionOf]

theorem Records.write (h : d.Records l) (key : Bytes) (w : Write) :
    (d.write key w).Records (l ++ [(key, w)]) := by
  intro pk
  have hlast : Ledger.writesTo [(key, w)] pk = if key = pk then [w] else [] :=
    Ledger.writesTo_map key pk [w]
  rw [getPartition_write, Ledger.writesTo_append, hlast]
  split
  · next hkey =>
    subst hkey
    rw [h key]
    cases hws : l.writesTo key with
    | nil => rfl
    | cons w' ws =>
      simp [partitionOf, ofWrites, applyAll]
  · rw [append_nil, h pk]

theorem Records.writeAll (h : d.Records l) (key : Bytes) (ws : List Write) :
    (d.writeAll key ws).Records (l ++ ws.map (key, ·)) := by
  induction ws generalizing d l with
  | nil => simpa [MemtableData.writeAll] using h
  | cons w ws ih => simpa [MemtableData.writeAll] using ih (h.write key w)

theorem Records.eq_nil (h : d.Records l) (hempty : d.iterPartitions = []) : l = [] := by
  cases l with
  | nil => rfl
  | cons op l =>
    exfalso
    have hnone : d.getPartition op.1 = none := by
      rw [getPartition, ← lookup_toList, show d.partitions.toList = [] from hempty]
      rfl
    have hmem : op.2 ∈ Ledger.writesTo (op :: l) op.1 := Ledger.mem_writesTo.mpr (by simp)
    rw [h op.1] at hnone
    cases hws : Ledger.writesTo (op :: l) op.1 with
    | nil => simp [hws] at hmem
    | cons w ws => simp [hws, partitionOf] at hnone

theorem Records.sstable (h : d.Records l) (keyspace table : String) (generation : Nat) :
    SSTable.Records ⟨keyspace, table, generation, d.iterPartitions⟩ l := by
  intro pk
  rw [← h pk, SSTable.getPartition, iterPartitions, lookup_toList, getPartition]

end MemtableData

theorem MemtableManager.contents_getOrCreate (mgr : MemtableManager) (cfName : String)
    (segId : Nat) :
    (mgr.getOrCreate cfName segId).2.contents (mgr.getOrCreate cfName segId).1.id =
      mgr.activeData cfName := by
  unfold getOrCreate activeData
  cases mgr.active[cfName]? with
  | some mt => rfl
  | none => simp [createActive]

theorem shows_none : Shows none [] := ⟨by simp, by simp, by simp⟩

theorem shows_some (hne : ws ≠ []) (hp : p.DistinctColumns) (hview : p.view = viewOf ws) :
    Shows (some p) ws where
  none_iff := by simp [hne]
  distinctColumns q hq := Option.some.inj hq ▸ hp
  view_eq q hq := Option.some.inj hq ▸ hview

theorem shows_partitionOf (h : ∀ w ∈ ws, w.DistinctColumns) :
    Shows (partitionOf ws) ws := by
  cases ws with
  | nil => exact shows_none
  | cons w ws =>
    exact shows_some (by simp) (distinctColumns_ofWrites h) (view_ofWrites h)

theorem Shows.merge {result found : Option PartitionData} {us : List Write} (h : Shows result ws)
    (hf : Shows found us) :
    Shows (found.elim result fun p => some (Engine.mergeRead result p)) (ws ++ us) := by
  cases found with
  | none => simpa [hf.none_iff.mp rfl] using h
  | some p =>
    have hne : us ≠ [] := fun hnil => absurd (hf.none_iff.mpr hnil) (by simp)
    have hp := hf.distinctColumns p rfl
    have hview := hf.view_eq p rfl
    cases result with
    | none =>
      rw [h.none_iff.mp rfl, nil_append]
      exact shows_some hne hp hview
    | some existing =>
      refine shows_some (by simp [hne]) ?_ ?_
      · rw [mergeRead_eq_applyAll]
        exact (h.distinctColumns existing rfl).applyAll hp.writes
      · rw [mergeRead_eq_applyAll, view_applyAll _ hp.writes,
          viewOf_writes hp, hview, h.view_eq existing rfl, viewOf_append]

section

variable {keyspace table : String} {pk : Bytes} {ledger : SSTable → Ledger}

theorem readSSTable_content (result : Option PartitionData) (t : SSTable) :
    Engine.readSSTable contentLayer keyspace table pk (result, ()) t =
      (if t.keyspace = keyspace ∧ t.table = table then
        (t.getPartition pk).elim result fun p => some (Engine.mergeRead result p)
      else result, ()) := by
  by_cases h : t.keyspace = keyspace ∧ t.table = table
  · simp only [Engine.readSSTable, contentLayer, h, and_self, if_true]
    cases t.getPartition pk <;> rfl
  · rw [Engine.readSSTable, if_neg (fun h' => h ⟨h'.1, h'.2.1⟩), if_neg h]

/-- The operations on a partition that the SSTables of a column family show to a read, the newest
table first. -/
def tableWrites (ledger : SSTable → Ledger) (keyspace table : String) (pk : Bytes)
    (tables : List SSTable) : List Write :=
  tables.flatMap fun t =>
    if t.keyspace = keyspace ∧ t.table = table then (ledger t).writesTo pk else []

theorem shows_foldl_readSSTable {tables : List SSTable}
    (ht : ∀ t ∈ tables, t.Records (ledger t) ∧ (ledger t).DistinctColumns)
    {result : Option PartitionData} (h : Shows result ws) :
    Shows (tables.foldl (Engine.readSSTable contentLayer keyspace table pk) (result, ())).1
      (ws ++ tableWrites ledger keyspace table pk tables) := by
  induction tables generalizing result ws with
  | nil => simpa [tableWrites] using h
  | cons t tables ih =>
    obtain ⟨hrec, hdist⟩ := ht t (by simp)
    have hrest := fun t' ht' => ht t' (mem_cons_of_mem t ht')
    rw [foldl_cons, readSSTable_content, tableWrites, flatMap_cons, ← tableWrites]
    split
    · have hfound : Shows (t.getPartition pk) ((ledger t).writesTo pk) := by
        rw [hrec pk]
        exact shows_partitionOf (hdist.writesTo pk)
      rw [← append_assoc]
      exact ih hrest (h.merge hfound)
    · exact ih hrest h

theorem shows_read_of_records {e : Store} {mem : Ledger}
    (hmem : (e.memtables.activeData (keyspace ++ "." ++ table)).Records mem)
    (hdist : mem.DistinctColumns)
    (ht : ∀ t ∈ e.sstables, t.Records (ledger t) ∧ (ledger t).DistinctColumns) :
    Shows (e.read keyspace table pk)
      (mem.writesTo pk ++ tableWrites ledger keyspace table pk e.sstables.reverse) := by
  have hfirst : Shows ((e.memtables.activeData (keyspace ++ "." ++ table)).getPartition pk)
      (mem.writesTo pk) := by
    rw [hmem pk]
    exact shows_partitionOf (hdist.writesTo pk)
  rw [← MemtableManager.contents_getOrCreate _ _ 0] at hfirst
  exact shows_foldl_readSSTable (fun t h => ht t (mem_reverse.mp h)) hfirst

end

end CassandraVerified.Storage
