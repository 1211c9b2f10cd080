import CassandraVerified.Storage.RowCache
import CassandraVerified.Storage.Proofs.CompactGroupProofs
import CassandraVerified.Storage.Proofs.DurabilityProofs
import CassandraVerified.Storage.Proofs.FlushProofs

/-!
# Proofs: the row cache

A read is determined by the memtable's partition and by the list of partitions that the SSTables
hold for the key. Each call keeps the invariant that every cached partition is what a read without
the cache gives, so that a hit gives it too.
-/

namespace CassandraVerified.Storage

open List MemtableManager Store Option RowCache MemtableData

variable {ks tb keyspace table : String}

/-! ## Memtables -/

namespace MemtableManager

/-- Memtables have been numbered before, and no two column families share one. -/
structure WellNumbered (mgr : MemtableManager) : Prop where
  numbered : mgr.Numbered
  inj : ∀ (cf cf' : String) (mt mt' : Memtable), mgr.active[cf]? = some mt →
    mgr.active[cf']? = some mt' → mt.id = mt'.id → cf = cf'

variable {mgr : MemtableManager}

theorem WellNumbered.replaceActive (h : mgr.WellNumbered) (cfName : String) (segId : Nat) :
    (mgr.replaceActive cfName segId).WellNumbered where
  numbered := h.numbered.replaceActive cfName segId
  inj cf cf' mt mt' hmt hmt' hid := by
    simp only [MemtableManager.replaceActive, createActive, Std.ExtTreeMap.getElem?_insert,
      Std.compare_eq_iff_eq] at hmt hmt'
    -- the new memtable has a number that no other one has
    split at hmt <;> split at hmt'
    · next hcf hcf' => rw [← hcf, ← hcf']
    · cases hmt
      exact absurd hid (Nat.ne_of_gt (h.numbered cf' mt' hmt'))
    · cases hmt'
      exact absurd hid (Nat.ne_of_lt (h.numbered cf mt hmt))
    · exact h.inj cf cf' mt mt' hmt hmt' hid

theorem WellNumbered.congr {mgr' : MemtableManager} (h : mgr.WellNumbered)
    (hactive : mgr'.active = mgr.active) (hnext : mgr'.nextId = mgr.nextId) :
    mgr'.WellNumbered where
  numbered cf mt hmt := by
    rw [hactive] at hmt
    rw [hnext]
    exact h.numbered cf mt hmt
  inj := by
    rw [hactive]
    exact h.inj

theorem WellNumbered.getOrCreate (h : mgr.WellNumbered) (cfName : String) (segId : Nat) :
    (mgr.getOrCreate cfName segId).2.WellNumbered := by
  unfold MemtableManager.getOrCreate
  cases mgr.active[cfName]? with
  | some mt => exact h
  | none =>
    have hfresh := h.replaceActive cfName segId
    exact ⟨hfresh.numbered, hfresh.inj⟩

theorem active_getOrCreate (cfName : String) (segId : Nat) :
    (mgr.getOrCreate cfName segId).2.active[cfName]? = some (mgr.getOrCreate cfName segId).1 := by
  unfold getOrCreate
  cases hold : mgr.active[cfName]? with
  | some mt => exact hold
  | none => simp [createActive]

theorem activeData_write (h : mgr.WellNumbered) {cfName : String} {mt : Memtable}
    (hmt : mgr.active[cfName]? = some mt) (pk : Bytes) (ws : List Write) (cf : String) :
    (mgr.write mt pk ws).activeData cf =
      if cfName = cf then (mgr.activeData cf).writeAll pk ws else mgr.activeData cf := by
  unfold activeData
  by_cases hcf : cfName = cf
  · subst hcf
    simp [write, hmt]
  · rw [if_neg hcf]
    cases hcf' : mgr.active[cf]? with
    | none => simp only [write, hcf']
    | some mt' =>
      have hne : mt'.id ≠ mt.id := fun hid => hcf (h.inj _ _ _ _ hmt hcf' hid.symm)
      simp only [write, hcf', Function.update_of_ne hne]

end MemtableManager

theorem MemtableData.getPartition_writeAll_of_ne (d : MemtableData) {key pk : Bytes}
    (h : key ≠ pk) (ws : List Write) : (d.writeAll key ws).getPartition pk = d.getPartition pk := by
  induction ws generalizing d with
  | nil => rfl
  | cons w ws ih =>
    rw [writeAll, foldl_cons]
    exact (ih (d.write key w)).trans ((getPartition_write d key pk w).trans (if_neg h))

/-! ## Reads -/

namespace Store

open CachedStore (partitionsOf)

variable {e e' : Store} {keyspace table : String} {k : Bytes}

/-- A read merges what the SSTables hold into what the memtable holds, the newest first. -/
theorem read_eq (e : Store) (keyspace table : String) (k : Bytes) : e.read keyspace table k =
      (partitionsOf e.sstables keyspace table k).reverse.foldl
        (fun result p => some (Engine.mergeRead result p))
        ((e.memtables.activeData (keyspace ++ "." ++ table)).getPartition k) := by
  have hfold : ∀ (tables : List SSTable) (result : Option PartitionData),
      (tables.foldl (Engine.readSSTable contentLayer keyspace table k) (result, ())).1 =
        (partitionsOf tables keyspace table k).foldl
          (fun result p => some (Engine.mergeRead result p)) result := by
    intro tables
    induction tables with
    | nil => intro result; rfl
    | cons t tables ih =>
      intro result
      rw [foldl_cons, readSSTable_content, ih]
      by_cases hnames : t.keyspace = keyspace ∧ t.table = table
      · cases hk : t.getPartition k <;> simp [partitionsOf, hnames, hk]
      · simp [partitionsOf, hnames]
  rw [read, Engine.readPartition]
  simp only [contents_getOrCreate]
  rw [hfold, partitionsOf, partitionsOf, filterMap_reverse]

theorem read_congr (hmem : (e'.memtables.activeData (keyspace ++ "." ++ table)).getPartition k =
      (e.memtables.activeData (keyspace ++ "." ++ table)).getPartition k)
    (htables : partitionsOf e'.sstables keyspace table k =
      partitionsOf e.sstables keyspace table k) :
    e'.read keyspace table k = e.read keyspace table k := by
  rw [read_eq, read_eq, hmem, htables]

/-! ## What the calls do to reads -/

theorem read_readPartition (hnum : e.memtables.WellNumbered) (ks tb : String) (pk : Bytes) :
    Store.read (e.readPartition contentLayer ks tb pk).1 keyspace table k =
      e.read keyspace table k := by
  refine read_congr ?_ rfl
  exact congrArg (getPartition · k) (activeData_getOrCreate hnum.numbered _ _ _)

theorem getPartition_writeMutation (hnum : e.memtables.WellNumbered) (m : Mutation) (segId : Nat)
    (h : keyspace ++ "." ++ table ≠ m.cfName ∨ k ≠ m.partitionKey) :
    ((e.writeMutation m segId).memtables.activeData (keyspace ++ "." ++ table)).getPartition k =
      (e.memtables.activeData (keyspace ++ "." ++ table)).getPartition k := by
  have hcreated := hnum.getOrCreate m.cfName segId
  have hwrite := activeData_write hcreated
    (active_getOrCreate m.cfName segId) m.partitionKey m.writes
    (keyspace ++ "." ++ table)
  rw [activeData_getOrCreate hnum.numbered] at hwrite
  refine (congrArg (getPartition · k) hwrite).trans ?_
  split
  · next hcf =>
    rcases h with hne | hne
    · exact absurd hcf.symm hne
    · exact getPartition_writeAll_of_ne _ (Ne.symm hne) _
  · rfl

theorem read_flushedTo_nil {cfName : String} (h : e.FlushedTo e' cfName [])
    (hmem : keyspace ++ "." ++ table = cfName →
      (e.memtables.activeData (keyspace ++ "." ++ table)).getPartition k = none) :
    e'.read keyspace table k = e.read keyspace table k := by
  refine read_congr ?_ (by rw [h.sstables, append_nil])
  rw [h.memtables]
  split
  · next hcf =>
    rw [hmem hcf.symm, getPartition_empty]
  · rfl

/-- The SSTable of a flush gives back what the memtable held. -/
theorem read_flushedTo_content (hks : '.' ∉ ks.toList)
    (hks' : '.' ∉ keyspace.toList) {generation : Nat}
    (h : e.FlushedTo e' (ks ++ "." ++ tb) [⟨ks, tb, generation,
      (e.memtables.activeData (ks ++ "." ++ tb)).iterPartitions⟩]) :
    e'.read keyspace table k = e.read keyspace table k := by
  by_cases hsame : ks = keyspace ∧ tb = table
  · obtain ⟨rfl, rfl⟩ := hsame
    have hlookup : SSTable.getPartition ⟨ks, tb, generation,
        (e.memtables.activeData (ks ++ "." ++ tb)).iterPartitions⟩ k =
          (e.memtables.activeData (ks ++ "." ++ tb)).getPartition k := by
      rw [SSTable.getPartition, iterPartitions, TreeMap.lookup_toList, getPartition]
    rw [read_eq, read_eq, h.memtables, if_pos rfl, getPartition_empty, h.sstables, partitionsOf,
      filterMap_append, reverse_append, foldl_append]
    cases hk : (e.memtables.activeData (ks ++ "." ++ tb)).getPartition k <;>
      simp [partitionsOf, hlookup, hk, Engine.mergeRead]
  · -- another table
    have hcf : ks ++ "." ++ tb ≠ keyspace ++ "." ++ table := fun hcf =>
      hsame (cfName_inj hks hks' hcf)
    refine read_congr ?_ ?_
    · rw [h.memtables, if_neg hcf]
    · simp [h.sstables, partitionsOf, hsame]

/-- With a keyspace without a dot, a flush changes no read, unless the SSTable cannot be written. -/
theorem read_flushCf (hnum : e.memtables.WellNumbered) (io : Io)
    (hks : '.' ∉ ks.toList) (hks' : '.' ∉ keyspace.toList)
    (hmem : keyspace = ks ∧ table = tb → io.writeFails = true →
      (e.memtables.activeData (keyspace ++ "." ++ table)).getPartition k = none) :
    Store.read (e.flushCf contentLayer (ks ++ "." ++ tb) io).1 keyspace table k =
      e.read keyspace table k := by
  cases hflush : e.flushCf contentLayer (ks ++ "." ++ tb) io with
  | mk e' result =>
    rcases Engine.flushCf_cases hnum.numbered hflush with
      ⟨hfailed, hflushed⟩ | ⟨-, hempty, hflushed, -⟩ | ⟨-, -, -, t, hcreate, hflushed⟩
    · -- only an I/O error makes the flush fail
      have hfails : io.writeFails = true := by
        by_contra hnot
        have hok : (e.flushCf contentLayer (ks ++ "." ++ tb) io).2 = .ok () :=
          Engine.flushCf_of_create hnum.numbered (Bool.eq_false_iff.mpr hnot) rfl
        rw [hflush] at hok
        exact hfailed hok
      exact read_flushedTo_nil hflushed fun hcf => hmem (cfName_inj hks' hks hcf) hfails
    · refine read_flushedTo_nil hflushed fun hcf => ?_
      rw [hcf, getPartition, ← TreeMap.lookup_toList, ← iterPartitions, hempty]
      rfl
    · rw [splitCfName_cfName hks] at hcreate
      obtain rfl := Except.ok.inj hcreate
      exact read_flushedTo_content hks hks' hflushed

/-- A key that no source has is not in the merged partitions. -/
theorem lookup_mergePartitions_eq_none {sources : List Source} {gcGraceSeconds now : Int32}
    (h : ∀ s ∈ sources, k ∉ s.map Prod.fst) :
    (mergePartitions sources gcGraceSeconds now).lookup k = none := by
  have hsource : ∀ (s : Source) (m : Std.ExtTreeMap Bytes PartitionData), k ∉ s.map Prod.fst →
      (mergeSource m s)[k]? = m[k]? := by
    intro s
    induction s with
    | nil => intro m _; rfl
    | cons x s ih =>
      intro m hk
      obtain ⟨hx, hs⟩ := ne_and_not_mem_of_not_mem_cons hk
      refine (ih _ hs).trans ?_
      simp [Std.ExtTreeMap.getElem?_alter, Ne.symm hx]
  have hsources : (mergeSources sources)[k]? = none := by
    suffices ∀ m : Std.ExtTreeMap Bytes PartitionData, m[k]? = none →
        (sources.foldl mergeSource m)[k]? = none from this ∅ (by simp)
    induction sources with
    | nil => intro m hm; exact hm
    | cons s sources ih =>
      intro m hm
      refine ih (fun s hs => h s (mem_cons_of_mem _ hs)) _ ?_
      rw [hsource s m (h s mem_cons_self), hm]
  rw [lookup_mergePartitions, hsources]
  rfl

theorem memtables_compactGroup (e : Store) (options : CompactionOptions) (now : Int32)
    (fails : Nat → Bool) (groupIds : List Nat) :
    (e.compactGroup contentLayer options now fails groupIds).1.memtables = e.memtables := by
  cases hcompact : e.compactGroup contentLayer options now fails groupIds with
  | mk e' result =>
    cases result with
    | error err => exact (compactGroup_error hcompact).1
    | ok u => exact (compactGroup_ok hcompact).1

/-- A compaction changes no read of a partition that the group does not hold. -/
theorem read_compactGroup (options : CompactionOptions) (now : Int32) (fails : Nat → Bool)
    {groupIds : List Nat}
    (h : ∀ t ∈ e.sstables, t.generation ∈ groupIds → t.getPartition k = none) :
    Store.read (e.compactGroup contentLayer options now fails groupIds).1 keyspace table k =
      e.read keyspace table k := by
  cases hcompact : e.compactGroup contentLayer options now fails groupIds with
  | mk e' result =>
    cases result with
    | error err =>
      obtain ⟨hmem, htables⟩ := compactGroup_error hcompact
      exact read_congr (by rw [hmem]) (by rw [htables])
    | ok u =>
      obtain ⟨hmem, outs, htables, hparts, -⟩ := compactGroup_ok hcompact
      refine read_congr (by rw [hmem]) ?_
      -- neither the group nor what is written for it holds the key
      have hmerged : (mergePartitions (e.groupSources groupIds) options.gcGraceSeconds now).lookup k =
          none := by
        refine lookup_mergePartitions_eq_none fun source hsource => ?_
        obtain ⟨t, ht, rfl⟩ := mem_map.mp hsource
        obtain ⟨ht, hid⟩ := mem_filter.mp ht
        have hnot := TreeMap.lookup_eq_none_iff.mp (h t ht (of_decide_eq_true hid))
        exact fun hk => hnot (map_subset _ (takeWhile_subset _) hk)
      have houts : partitionsOf outs keyspace table k = [] := by
        refine filterMap_eq_nil_iff.mpr fun t ht => ?_
        split
        · refine TreeMap.lookup_eq_none_iff.mpr fun hk =>
            TreeMap.lookup_eq_none_iff.mp hmerged ?_
          rw [← hparts]
          exact map_subset _ (sublist_flatten_of_mem (mem_map_of_mem ht)).subset hk
        · rfl
      have hgroup : partitionsOf (e.sstables.filter fun t => t.generation ∉ groupIds)
          keyspace table k = partitionsOf e.sstables keyspace table k := by
        rw [partitionsOf, filterMap_filter]
        refine filterMap_congr fun t ht => ?_
        by_cases hid : t.generation ∈ groupIds
        · simp [hid, h t ht hid]
        · simp [hid]
      rw [htables, partitionsOf, filterMap_append]
      exact (congrArg₂ (· ++ ·) hgroup houts).trans (append_nil _)

theorem memtables_truncateTable (e : Store) (keyspace table : String) :
    (e.truncateTable keyspace table).memtables.active = (e.memtables.replaceActive
        (keyspace ++ "." ++ table) e.commitlog.current.id).active ∧
      (e.truncateTable keyspace table).memtables.nextId = (e.memtables.replaceActive
        (keyspace ++ "." ++ table) e.commitlog.current.id).nextId ∧
      (e.truncateTable keyspace table).memtables.contents = (e.memtables.replaceActive
        (keyspace ++ "." ++ table) e.commitlog.current.id).contents := by
  unfold truncateTable
  rw [switchMemtable_eq]
  cases e.memtables.active[keyspace ++ "." ++ table]? <;> exact ⟨rfl, rfl, rfl⟩

theorem read_truncateTable (hnum : e.memtables.WellNumbered)
    (h : keyspace ++ "." ++ table ≠ ks ++ "." ++ tb) :
    (e.truncateTable ks tb).read keyspace table k = e.read keyspace table k := by
  obtain ⟨hactive, -, hcontents⟩ := memtables_truncateTable e ks tb
  have hdata := activeData_replaceActive hnum.numbered (ks ++ "." ++ tb)
    (keyspace ++ "." ++ table) e.commitlog.current.id
  rw [if_neg (Ne.symm h)] at hdata
  refine read_congr ?_ ?_
  · rw [← hdata, MemtableManager.activeData, MemtableManager.activeData, hactive, hcontents]
  · rw [truncateTable, partitionsOf, filterMap_filter]
    refine filterMap_congr fun t _ => ?_
    by_cases hnames : t.keyspace = keyspace ∧ t.table = table
    · have hother : ¬(t.keyspace = ks ∧ t.table = tb) := fun hother =>
        h (by rw [← hnames.1, ← hnames.2, hother.1, hother.2])
      rw [decide_eq_true hother, if_pos rfl]
    · simp [hnames]

end Store

/-! ## The cache -/

namespace RowCache

variable [Lru] {c : RowCache} {th : UInt64} {pk : Bytes} {p : PartitionData}
  {x : (UInt64 × Bytes) × PartitionData}

theorem mem_of_get (h : (c.get th pk).1 = some p) : ((th, pk), p) ∈ c.cache.entries := by
  unfold get at h
  split at h
  · exact Lru.mem_of_get h
  · cases h

theorem mem_entries_of_get (h : x ∈ (c.get th pk).2.cache.entries) : x ∈ c.cache.entries := by
  unfold get at h
  split at h
  · exact Lru.mem_entries_of_get h
  · exact h

theorem mem_entries_of_put (h : x ∈ (c.put th pk p).cache.entries) :
    x = ((th, pk), p) ∨ x ∈ c.cache.entries := by
  unfold put at h
  split at h
  · exact (Lru.mem_entries_of_put h).imp_right And.left
  · exact .inr h

theorem enabled_of_get (h : (c.get th pk).1 = some p) : c.enabled = true := by
  unfold get at h
  split at h
  · next henabled => exact henabled
  · cases h

theorem enabled_get : (c.get th pk).2.enabled = c.enabled := by
  unfold get
  split <;> rfl

theorem enabled_put : (c.put th pk p).enabled = c.enabled := by
  unfold put
  split <;> rfl

theorem mem_eraseIf {p : UInt64 × Bytes → Bool} {c' : RowCache}
    (hc' : c' = if c.enabled then { c with cache := Lru.eraseIf c.cache p } else c)
    (henabled : c'.enabled = true) (h : x ∈ c'.cache.entries) :
    c.enabled = true ∧ x ∈ c.cache.entries ∧ p x.1 = false := by
  split at hc' <;> subst hc'
  · next hc => exact ⟨hc, Lru.mem_entries_eraseIf.mp h⟩
  · next hc => exact absurd henabled hc

end RowCache

/-! ## Coherence -/

namespace CachedStore

section

variable [Lru] {tableHash : TableHash} {ext : LogExternal} {tables : List (String × String)}
  {s s' : CachedStore}

/-- Every cached partition is what a read without the cache gives. -/
structure Coherent (tableHash : TableHash) (tables : List (String × String)) (s : CachedStore) :
    Prop where
  memtables : s.store.memtables.WellNumbered
  entries : ∀ c ∈ s.rowCache, c.enabled = true → ∀ keyspace table, (keyspace, table) ∈ tables →
    ∀ k p, ((tableHash keyspace table, k), p) ∈ c.cache.entries →
      s.store.read keyspace table k = some p

theorem Coherent.of_reads (h : s.Coherent tableHash tables) (hmem : s'.store.memtables.WellNumbered)
    (hreads : ∀ c' ∈ s'.rowCache, c'.enabled = true → ∀ keyspace table, (keyspace, table) ∈ tables →
      ∀ k p, ((tableHash keyspace table, k), p) ∈ c'.cache.entries →
        (∃ c ∈ s.rowCache, c.enabled = true ∧ ((tableHash keyspace table, k), p) ∈ c.cache.entries) ∧
          s'.store.read keyspace table k = s.store.read keyspace table k) :
    s'.Coherent tableHash tables where
  memtables := hmem
  entries c' hc' henabled keyspace table ht k p hentry := by
    obtain ⟨⟨c, hc, hon, hold⟩, hread⟩ := hreads c' hc' henabled keyspace table ht k p hentry
    rw [hread]
    exact h.entries c hc hon keyspace table ht k p hold

/-- What a read may leave in the cache: what was there, and what it has given. -/
def Remains (tableHash : TableHash) (s : CachedStore) (keyspace table : String) (pk : Bytes)
    (rowCache : Option RowCache) : Prop :=
  ∀ c' ∈ rowCache, c'.enabled = true → ∃ c ∈ s.rowCache, c.enabled = true ∧
    ∀ x ∈ c'.cache.entries, x ∈ c.cache.entries ∨
      ∃ p, x = ((tableHash keyspace table, pk), p) ∧ s.store.read keyspace table pk = some p

theorem readThrough_spec {pk : Bytes} {rowCache : Option RowCache}
    (h : s.Remains tableHash keyspace table pk rowCache) :
    (readThrough tableHash s.store rowCache keyspace table pk).2 = s.store.read keyspace table pk ∧
      (readThrough tableHash s.store rowCache keyspace table pk).1.store =
        (s.store.readPartition contentLayer keyspace table pk).1 ∧
      s.Remains tableHash keyspace table pk
        (readThrough tableHash s.store rowCache keyspace table pk).1.rowCache := by
  unfold readThrough
  have hread : (s.store.readPartition contentLayer keyspace table pk).2 =
    s.store.read keyspace table pk := rfl
  cases hresult : s.store.readPartition contentLayer keyspace table pk with
  | mk store result =>
    rw [hresult] at hread
    cases result with
    | none => exact ⟨hread, rfl, h⟩
    | some data =>
      refine ⟨hread, rfl, fun c' hc' henabled => ?_⟩
      obtain ⟨c₁, hc₁, rfl⟩ := map_eq_some_iff.mp hc'
      rw [enabled_put] at henabled
      obtain ⟨c, hc, hon, hentries⟩ := h c₁ hc₁ henabled
      refine ⟨c, hc, hon, fun x hx => ?_⟩
      rcases mem_entries_of_put hx with rfl | hold
      · exact .inr ⟨data, rfl, hread.symm⟩
      · exact hentries x hold

section

variable (h : s.Coherent tableHash tables)

include h

/-- A read with the cache gives what a read without it gives. -/
theorem Coherent.readPartition_spec (ht : (keyspace, table) ∈ tables) (pk : Bytes) :
    (s.readPartition tableHash keyspace table pk).2 = s.store.read keyspace table pk ∧
      (s.readPartition tableHash keyspace table pk).1.store =
        (s.store.readPartition contentLayer keyspace table pk).1 ∧
      s.Remains tableHash keyspace table pk
        (s.readPartition tableHash keyspace table pk).1.rowCache := by
  have hsame : s.Remains tableHash keyspace table pk s.rowCache :=
    fun c hc hon => ⟨c, hc, hon, fun x hx => .inl hx⟩
  unfold CachedStore.readPartition
  simp only [contents_getOrCreate]
  split
  · next cache hmem hcache =>
    have hget : s.Remains tableHash keyspace table pk
        (some (cache.get (tableHash keyspace table) pk).2) := by
      intro c' hc' henabled
      obtain rfl := Option.some.inj hc'
      rw [enabled_get] at henabled
      exact ⟨cache, hcache, henabled, fun x hx => .inl (mem_entries_of_get hx)⟩
    cases hfound : cache.get (tableHash keyspace table) pk with
    | mk found cache' =>
      rw [hfound] at hget
      cases found with
      | none => exact readThrough_spec hget
      | some cached =>
        -- a hit
        have hhit : (cache.get (tableHash keyspace table) pk).1 = some cached := by rw [hfound]
        have hread := h.entries cache hcache (enabled_of_get hhit) keyspace table ht pk
          cached (mem_of_get hhit)
        exact ⟨hread.symm, rfl, hget⟩
  · exact readThrough_spec hsame

theorem Coherent.readPartition (hapart : Apart tableHash tables)
    (ht : (keyspace, table) ∈ tables) (pk : Bytes) :
    (s.readPartition tableHash keyspace table pk).1.Coherent tableHash tables := by
  obtain ⟨-, hstore, hremains⟩ := h.readPartition_spec ht pk
  have hnum := h.memtables.getOrCreate (keyspace ++ "." ++ table) 0
  refine ⟨hstore ▸ hnum, fun c' hc' henabled ks tb ht' k p hentry => ?_⟩
  rw [hstore, read_readPartition h.memtables]
  obtain ⟨c, hc, hon, hentries⟩ := hremains c' hc' henabled
  rcases hentries _ hentry with hold | ⟨q, heq, hq⟩
  · exact h.entries c hc hon ks tb ht' k p hold
  · -- no other table has the hash of this one
    rw [Prod.mk.injEq, Prod.mk.injEq] at heq
    obtain ⟨⟨hhash, rfl⟩, rfl⟩ := heq
    obtain ⟨rfl, rfl⟩ := Prod.mk.inj (hapart.hashes _ ht' _ ht hhash)
    exact hq

theorem Coherent.of_store {store : Store} (hmem : store.memtables.WellNumbered)
    (hreads : ∀ keyspace table k, s.Caches tableHash tables keyspace table k →
      store.read keyspace table k = s.store.read keyspace table k) :
    Coherent tableHash tables ⟨store, s.rowCache⟩ :=
  h.of_reads hmem fun c hc hon _ _ ht _ _ hentry =>
    ⟨⟨c, hc, hon, hentry⟩, hreads _ _ _ ⟨ht, c, hc, hon, _, hentry⟩⟩

section

variable (hapart : Apart tableHash tables)

include hapart

theorem Coherent.flushCf {io : Io} (hks : '.' ∉ keyspace.toList)
    (hmem : io.writeFails = true → ∀ k, s.Caches tableHash tables keyspace table k →
      (s.store.memtables.activeData (keyspace ++ "." ++ table)).getPartition k = none) :
    (s.flushCf (keyspace ++ "." ++ table) io).1.Coherent tableHash tables := by
  obtain ⟨hactive, hnext⟩ :=
    Engine.active_flushCf contentLayer s.store (keyspace ++ "." ++ table) io
  refine h.of_store ((h.memtables.replaceActive _ _).congr hactive hnext) fun ks tb k hcached => ?_
  refine read_flushCf h.memtables io hks (hapart.noDot _ hcached.1) ?_
  rintro ⟨rfl, rfl⟩ hfails
  exact hmem hfails k hcached

theorem Coherent.applyMutation (ext : LogExternal) {m : Mutation} {io : Io}
    (hks : '.' ∉ m.keyspace.toList)
    (hmem : io.writeFails = true → ∀ k, s.Caches tableHash tables m.keyspace m.table k →
      k ≠ m.partitionKey → (s.store.memtables.activeData m.cfName).getPartition k = none) :
    (s.applyMutation tableHash ext m io).1.Coherent tableHash tables := by
  unfold CachedStore.applyMutation
  cases happend : s.store.commitlog.append ext m io.cdcUsed with
  | mk log result =>
    cases result with
    | error err => exact h.of_store h.memtables fun _ _ _ _ => read_congr rfl rfl
    | ok pos =>
      -- what remains in the cache is of another partition
      have hother : ∀ c' ∈ s.rowCache.map
          (·.invalidatePartition (tableHash m.keyspace m.table) m.partitionKey), c'.enabled = true →
          ∀ ks tb, (ks, tb) ∈ tables → ∀ k p, ((tableHash ks tb, k), p) ∈ c'.cache.entries →
            (∃ c ∈ s.rowCache, c.enabled = true ∧ ((tableHash ks tb, k), p) ∈ c.cache.entries) ∧
              (ks ++ "." ++ tb ≠ m.cfName ∨ k ≠ m.partitionKey) := by
        intro c' hc' henabled ks tb ht k p hentry
        obtain ⟨c, hc, rfl⟩ := map_eq_some_iff.mp hc'
        obtain ⟨hon, hold, hne⟩ := mem_eraseIf rfl henabled hentry
        replace hne := of_decide_eq_false hne
        refine ⟨⟨c, hc, hon, hold⟩, ?_⟩
        by_contra hsame
        obtain ⟨hcf, hk⟩ := not_or.mp hsame
        obtain ⟨rfl, rfl⟩ := cfName_inj (hapart.noDot _ ht) hks (not_not.mp hcf)
        exact hne (by rw [not_not.mp hk])
      have hwritten := fun ks tb k => @getPartition_writeMutation { s.store with commitlog := log }
        ks tb k h.memtables m pos.1
      have hcoherent : Coherent tableHash tables
          ⟨{ s.store with commitlog := log }.writeMutation m pos.1, s.rowCache.map
            (·.invalidatePartition (tableHash m.keyspace m.table) m.partitionKey)⟩ := by
        refine h.of_reads ?_ fun c' hc' henabled ks tb ht k p hentry => ?_
        · exact ((h.memtables.getOrCreate m.cfName pos.1).congr rfl rfl)
        · obtain ⟨hold, hne⟩ := hother c' hc' henabled ks tb ht k p hentry
          exact ⟨hold, read_congr (hwritten ks tb k hne) rfl⟩
      simp only
      split
      · refine hcoherent.flushCf hapart hks fun hfails k hcached => ?_
        obtain ⟨ht, c', hc', henabled, p, hentry⟩ := hcached
        obtain ⟨⟨c, hc, hon, hold⟩, hne⟩ := hother c' hc' henabled _ _ ht k p hentry
        have hk : k ≠ m.partitionKey := hne.resolve_left (not_not.mpr rfl)
        rw [hwritten m.keyspace m.table k hne]
        exact hmem hfails k ⟨ht, c, hc, hon, p, hold⟩ hk
      · exact hcoherent

theorem Coherent.truncateTable (hks : '.' ∉ keyspace.toList) :
    (s.truncateTable tableHash keyspace table).Coherent tableHash tables := by
  have hother : ∀ ks tb, (ks, tb) ∈ tables → tableHash ks tb ≠ tableHash keyspace table →
      ks ++ "." ++ tb ≠ keyspace ++ "." ++ table := by
    intro ks tb ht hne hcf
    obtain ⟨rfl, rfl⟩ := cfName_inj (hapart.noDot _ ht) hks hcf
    exact hne rfl
  obtain ⟨hactive, hnext, -⟩ := memtables_truncateTable s.store keyspace table
  refine h.of_reads ((h.memtables.replaceActive _ _).congr hactive hnext) ?_
  intro c' hc' henabled ks tb ht k p hentry
  obtain ⟨c, hc, rfl⟩ := map_eq_some_iff.mp hc'
  obtain ⟨hon, hold, hne⟩ := mem_eraseIf rfl henabled hentry
  replace hne := of_decide_eq_false hne
  exact ⟨⟨c, hc, hon, hold⟩, read_truncateTable h.memtables (hother ks tb ht hne)⟩

/-- A call that is harmless keeps the cache coherent. -/
theorem Coherent.step (ext : LogExternal) {op : Op} (hop : s.Harmless tableHash tables op) :
    (s.step tableHash ext op).1.Coherent tableHash tables := by
  have hreload : ∀ (store : Store) (disk : Option Disk), store.memtables = s.store.memtables →
      store.sstables = s.store.sstables → (∀ d ∈ disk, s.SameOnDisk tableHash tables d) →
      Coherent tableHash tables ⟨disk.elim store store.reloadSSTables, s.rowCache⟩ := by
    intro store disk hmem htables hsame
    cases disk with
    | none =>
      exact h.of_store (hmem ▸ h.memtables) fun ks tb k _ =>
        read_congr (by rw [elim_none, hmem]) (by rw [elim_none, htables])
    | some d =>
      exact h.of_store (hmem ▸ h.memtables) fun ks tb k hcached =>
        read_congr (congrArg (fun mgr : MemtableManager =>
          (mgr.activeData (ks ++ "." ++ tb)).getPartition k) hmem) (hsame d rfl ks tb k hcached)
  cases op with
  | applyMutation m io => exact h.applyMutation hapart ext hop.1 hop.2
  | readPartition keyspace table pk => exact h.readPartition hapart hop pk
  | flushCf keyspace table io => exact h.flushCf hapart hop.1 hop.2
  | compactGroup options now fails groupIds =>
    refine h.of_store ?_ fun ks tb k hcached =>
      read_compactGroup options now fails (hop ks tb k hcached)
    rw [memtables_compactGroup]
    exact h.memtables
  | truncateTable keyspace table => exact h.truncateTable hapart hop
  | restoreSnapshot disk | refresh disk => exact hreload s.store disk rfl rfl hop
  | importSSTables found disk =>
    exact hreload { s.store with nextGeneration := s.store.nextGeneration + found } disk rfl rfl hop

end

end

/-! ## With and without a cache -/

end

attribute [local instance] RecencyList.lru

def oneValue (value : UInt8) (timestamp : Int64) : PartitionData :=
  .ofWrites [.row ⟨[0], [⟨"v", some [value], timestamp, 0, none, false⟩], false, none⟩]

end CachedStore

end CassandraVerified.Storage
