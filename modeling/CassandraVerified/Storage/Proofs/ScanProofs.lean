import CassandraVerified.Storage.Proofs.LayerProofs
import CassandraVerified.Storage.Proofs.SupersedesProofs

/-!
# Proofs: scans, and flushes that fail

Reads change nothing that a later read depends on, so a scan is a filter of its keys by reads. A
read is the merge of the memtable with what is on disk, and a flush that fails takes the memtable
away.
-/

namespace CassandraVerified.Storage

open List SSTableHandle PartitionData Engine

variable {k : Bytes} {t : SSTableHandle} {p : PartitionData} {o : Option PartitionData}

theorem Engine.mem_foldl_scanSSTable {T C : Type} (layer : SSTableLayer T C)
    (keyspace table : String) (k : Bytes) (ts : List T) (keys : Std.ExtTreeSet Bytes) :
    k ∈ ts.foldl (scanSSTable layer keyspace table) keys ↔
      k ∈ keys ∨ ∃ t ∈ ts, (layer.keyspace t = keyspace ∧ layer.table t = table) ∧
        ∃ partitions, layer.iterPartitions t = .ok partitions ∧ k ∈ partitions.map Prod.fst := by
  induction ts generalizing keys with
  | nil => simp
  | cons t ts ih =>
    have hstep : k ∈ scanSSTable layer keyspace table keys t ↔
        k ∈ keys ∨ (layer.keyspace t = keyspace ∧ layer.table t = table) ∧
          ∃ partitions, layer.iterPartitions t = .ok partitions ∧ k ∈ partitions.map Prod.fst := by
      unfold scanSSTable
      by_cases hnames : layer.keyspace t = keyspace ∧ layer.table t = table
      · rw [if_pos hnames]
        cases layer.iterPartitions t with
        | ok partitions => simp [hnames]
        | error err => simp
      · simp [hnames]
    rw [foldl_cons, ih, hstep, exists_mem_cons_iff, or_assoc]

namespace FileEngine

section

variable [Lru] {env : WriterEnv} {format : SSTableFormat} {e e' : FileEngine}
  {keyspace table : String}

/-- Reads of the two engines see the same data. -/
structure SameData (e e' : FileEngine) : Prop where
  sstables : e'.sstables = e.sstables
  memtables : ∀ cfName, e'.memtables.activeData cfName = e.memtables.activeData cfName

theorem Sound.read_of_sameData (h : e.Sound) (h' : e'.Sound) (hdata : e.SameData e')
    (keyspace table : String) (pk : Bytes) :
    e'.read env format keyspace table pk = e.read env format keyspace table pk := by
  rw [h.read_eq, h'.read_eq, hdata.sstables, hdata.memtables]

theorem Sound.readPartition (h : e.Sound) (env : WriterEnv) (format : SSTableFormat)
    (keyspace table : String) (pk : Bytes) :
    Sound (e.readPartition (fileLayer env format) keyspace table pk).1 ∧
      e.SameData (e.readPartition (fileLayer env format) keyspace table pk).1 := by
  have hcache : e.cache.Sound e.sstables e.nextGeneration := ⟨h.cached, h.offsets⟩
  obtain ⟨c', hc', hfold⟩ := foldl_readSSTable_file env format keyspace table pk h.distinct
    h.numbered (fun t ht => mem_reverse.mp ht)
    ((e.memtables.activeData (keyspace ++ "." ++ table)).getPartition pk) hcache
  rw [Engine.readPartition]
  simp only [MemtableManager.contents_getOrCreate, hfold]
  have hnum : e.memtables.Numbered := h.memtables
  exact ⟨⟨hnum.getOrCreate _ _, h.distinct, h.numbered, hc'.cached, hc'.offsets⟩,
    ⟨rfl, fun cf => MemtableManager.activeData_getOrCreate hnum _ cf _⟩⟩

theorem SameData.trans {e₁ e₂ e₃ : FileEngine} (h : e₁.SameData e₂) (h' : e₂.SameData e₃) :
    e₁.SameData e₃ :=
  ⟨h'.sstables.trans h.sstables, fun cf => (h'.memtables cf).trans (h.memtables cf)⟩

theorem Sound.foldl_scanPartition (h : e.Sound) (env : WriterEnv) (format : SSTableFormat)
    (keyspace table : String) (keys : List Bytes) {e₁ : FileEngine} (h₁ : e₁.Sound)
    (hdata : e.SameData e₁) (found : Source) :
    (keys.foldl (scanPartition (fileLayer env format) keyspace table) (e₁, found)).2 =
      found ++ keys.filterMap fun k => (e.read env format keyspace table k).map (k, ·) := by
  induction keys generalizing e₁ found with
  | nil => exact (append_nil _).symm
  | cons k keys ih =>
    obtain ⟨hsound, hsame⟩ := h₁.readPartition env format keyspace table k
    have hread : (e₁.readPartition (fileLayer env format) keyspace table k).2 =
        e.read env format keyspace table k := h.read_of_sameData h₁ hdata keyspace table k
    rw [foldl_cons, scanPartition]
    cases hresult : e₁.readPartition (fileLayer env format) keyspace table k with
    | mk e₂ result =>
      rw [hresult] at hread hsound hsame
      simp only at hread hsound hsame
      subst hread
      cases hk : e.read env format keyspace table k with
      | none => simpa [hk] using ih hsound (hdata.trans hsame) found
      | some p => simpa [hk] using ih hsound (hdata.trans hsame) (found ++ [(k, p)])

theorem Sound.scan_eq (h : e.Sound) (env : WriterEnv) (format : SSTableFormat)
    (keyspace table : String) :
    e.scan env format keyspace table =
      (e.scanKeys (fileLayer env format) keyspace table).toList.filterMap fun k =>
        (e.read env format keyspace table k).map (k, ·) :=
  h.foldl_scanPartition env format keyspace table _ h ⟨rfl, fun _ => rfl⟩ []

theorem Sound.mem_map_fst_scan (h : e.Sound) : k ∈ (e.scan env format keyspace table).map Prod.fst ↔
      k ∈ e.scanKeys (fileLayer env format) keyspace table ∧
        ∃ p, e.read env format keyspace table k = some p := by
  rw [h.scan_eq]
  constructor
  · intro hk
    obtain ⟨x, hx, rfl⟩ := mem_map.mp hk
    obtain ⟨k', hk', heq⟩ := mem_filterMap.mp hx
    obtain ⟨p, hp, rfl⟩ := Option.map_eq_some_iff.mp heq
    exact ⟨Std.ExtTreeSet.mem_toList.mp hk', p, hp⟩
  · rintro ⟨hk, p, hp⟩
    exact mem_map.mpr ⟨(k, p), mem_filterMap.mpr
      ⟨k, Std.ExtTreeSet.mem_toList.mpr hk, by rw [hp]; rfl⟩, rfl⟩

theorem mem_scanKeys (env : WriterEnv) (format : SSTableFormat) :
    k ∈ e.scanKeys (fileLayer env format) keyspace table ↔
      (∃ p, (e.memtables.activeData (keyspace ++ "." ++ table)).getPartition k = some p) ∨
        e.Listed keyspace table k := by
  rw [scanKeys, mem_foldl_scanSSTable]
  refine or_congr_left ?_
  simp only [MemtableData.iterPartitions, MemtableData.getPartition, Std.ExtTreeSet.mem_insertMany_list,
    Std.ExtTreeSet.not_mem_empty, false_or, Std.ExtTreeMap.map_fst_toList_eq_keys,
    contains_iff_mem, Std.ExtTreeMap.mem_keys]
  exact Std.ExtTreeMap.mem_iff_isSome_getElem?.trans Option.isSome_iff_exists

theorem distinctColumns_of_lookup (h : e.DistinctColumns) (ht : t ∈ e.sstables)
    (hp : t.lookup keyspace table k = some p) : p.DistinctColumns := by
  rw [SSTableHandle.lookup] at hp
  split at hp
  · refine h.sstables t ht k p ?_
    cases hfind : t.find k with
    | error err => simp [hfind, Except.toOption] at hp
    | ok found =>
      have hfound : found = some p := by simpa [hfind, Except.toOption] using hp
      rw [hfound]
  · cases hp

omit [Lru] in
theorem distinctColumns_mergeInto (ht : ∀ q, t.lookup keyspace table k = some q → q.DistinctColumns)
    (ho : ∀ q, o = some q → q.DistinctColumns) :
    ∀ q, SSTableHandle.mergeInto keyspace table k o t = some q → q.DistinctColumns := by
  intro q hq
  rw [SSTableHandle.mergeInto] at hq
  cases hlookup : t.lookup keyspace table k with
  | none =>
    rw [hlookup] at hq
    exact ho q hq
  | some p =>
    rw [hlookup, Option.elim_some, Option.some.injEq] at hq
    cases o with
    | none => exact hq ▸ ht p hlookup
    | some a => exact hq ▸ (ho a rfl).mergeOlder (ht p hlookup)

variable {ts : List SSTableHandle}

omit [Lru] in
theorem distinctColumns_foldl_mergeInto
    (hts : ∀ t ∈ ts, ∀ q, t.lookup keyspace table k = some q → q.DistinctColumns)
    (ho : ∀ q, o = some q → q.DistinctColumns) :
    ∀ q, ts.foldl (SSTableHandle.mergeInto keyspace table k) o = some q → q.DistinctColumns := by
  induction ts generalizing o with
  | nil => exact ho
  | cons t ts ih =>
    exact ih (fun t ht => hts t (mem_cons_of_mem _ ht))
      (distinctColumns_mergeInto (hts t mem_cons_self) ho)

theorem distinctColumns_onDisk (hcols : e.DistinctColumns) {q : PartitionData}
    (hq : e.onDisk keyspace table k = some q) : q.DistinctColumns :=
  distinctColumns_foldl_mergeInto
    (fun _ ht _ => distinctColumns_of_lookup hcols (mem_reverse.mp ht)) (by simp) q hq

omit [Lru] in
/-- Merging the SSTables into `p` is merging them with each other, and then into `p`. -/
theorem foldl_mergeInto_some (hp : p.DistinctColumns)
    (hts : ∀ t ∈ ts, ∀ q, t.lookup keyspace table k = some q → q.DistinctColumns)
    (ho : ∀ q, o = some q → q.DistinctColumns) :
    ts.foldl (SSTableHandle.mergeInto keyspace table k) (some (o.elim p p.mergeOlder)) =
      some ((ts.foldl (SSTableHandle.mergeInto keyspace table k) o).elim p p.mergeOlder) := by
  induction ts generalizing o with
  | nil => rfl
  | cons t ts ih =>
    have ht := hts t mem_cons_self
    have hstep : SSTableHandle.mergeInto keyspace table k (some (o.elim p p.mergeOlder)) t =
        some ((SSTableHandle.mergeInto keyspace table k o t).elim p p.mergeOlder) := by
      unfold SSTableHandle.mergeInto
      cases hlookup : t.lookup keyspace table k with
      | none => rfl
      | some q =>
        cases o with
        | none => rfl
        | some a =>
          exact congrArg some (mergeOlder_assoc hp (ho a rfl) (ht q hlookup))
    rw [foldl_cons, foldl_cons, hstep]
    exact ih (fun t ht => hts t (mem_cons_of_mem _ ht)) (distinctColumns_mergeInto ht ho)

theorem Sound.read_eq_onDisk (h : e.Sound) (hcols : e.DistinctColumns) (env : WriterEnv)
    (format : SSTableFormat) (keyspace table : String) (k : Bytes) :
    e.read env format keyspace table k =
      ((e.memtables.activeData (keyspace ++ "." ++ table)).getPartition k).elim
        (e.onDisk keyspace table k)
        fun p => some ((e.onDisk keyspace table k).elim p p.mergeOlder) := by
  rw [h.read_eq]
  cases hmem : (e.memtables.activeData (keyspace ++ "." ++ table)).getPartition k with
  | none => rfl
  | some p =>
    exact foldl_mergeInto_some (o := none) (hcols.memtables _ k p hmem)
      (fun _ ht _ => distinctColumns_of_lookup hcols (mem_reverse.mp ht)) (by simp)

/-- The column family has the same keys, and the same partitions under them. -/
def SameKeys (env : WriterEnv) (format : SSTableFormat) (e e' : FileEngine)
    (keyspace table : String) : Prop :=
  (∀ k, e'.read env format keyspace table k = e.read env format keyspace table k) ∧
    e'.scanKeys (fileLayer env format) keyspace table =
      e.scanKeys (fileLayer env format) keyspace table

section FailedFlush

variable {cfName : String} (hflushed : e.FlushedTo e' cfName [])

include hflushed

theorem onDisk_of_failed (keyspace table : String) (k : Bytes) :
    e'.onDisk keyspace table k = e.onDisk keyspace table k := by
  rw [onDisk, onDisk, hflushed.sstables, append_nil]

theorem listed_of_failed (keyspace table : String) (k : Bytes) :
    e'.Listed keyspace table k ↔ e.Listed keyspace table k := by
  rw [Listed, Listed, hflushed.sstables, append_nil]

theorem distinctColumns_of_failed (hcols : e.DistinctColumns) : e'.DistinctColumns where
  memtables cf k p hp := by
    rw [hflushed.memtables] at hp
    split at hp
    · simp at hp
    · exact hcols.memtables cf k p hp
  sstables t ht := by
    rw [hflushed.sstables, append_nil] at ht
    exact hcols.sstables t ht

theorem read_of_failed (h' : e'.Sound) (hcols : e.DistinctColumns)
    (hcf : keyspace ++ "." ++ table = cfName) (k : Bytes) :
    e'.read env format keyspace table k = e.onDisk keyspace table k := by
  have hempty : e'.memtables.activeData (keyspace ++ "." ++ table) = .empty := by
    rw [hflushed.memtables, if_pos hcf.symm]
  rw [h'.read_eq_onDisk (distinctColumns_of_failed hflushed hcols), hempty,
    MemtableData.getPartition_empty]
  exact onDisk_of_failed hflushed keyspace table k

theorem sameResults_other (h : e.Sound) (h' : e'.Sound) (hcf : keyspace ++ "." ++ table ≠ cfName) :
    SameKeys env format e e' keyspace table := by
  have hmem : e'.memtables.activeData (keyspace ++ "." ++ table) =
      e.memtables.activeData (keyspace ++ "." ++ table) := by
    rw [hflushed.memtables, if_neg (Ne.symm hcf)]
  constructor
  · intro k
    rw [h'.read_eq, h.read_eq, hmem, hflushed.sstables, append_nil]
  · rw [scanKeys, scanKeys, hmem, hflushed.sstables, append_nil]

/-- Reads and scans of the column family are as before if nothing was in the memtable only. -/
theorem sameResults_superseded (h : e.Sound) (h' : e'.Sound) (hcols : e.DistinctColumns)
    (hsup : e.MemtableSuperseded cfName) (hcf : keyspace ++ "." ++ table = cfName) :
    SameKeys env format e e' keyspace table := by
  constructor
  · intro k
    rw [read_of_failed hflushed h' hcols hcf, h.read_eq_onDisk hcols]
    cases hmem : (e.memtables.activeData (keyspace ++ "." ++ table)).getPartition k with
    | none => rfl
    | some p =>
      obtain ⟨⟨q, hq, hqp⟩, -⟩ := hsup keyspace table hcf k p (hcf ▸ hmem)
      have hpcols := hcols.memtables _ k p hmem
      have hqcols := distinctColumns_onDisk hcols hq
      rw [hq, Option.elim_some, Option.elim_some, (mergeOlder_eq_right_iff hpcols hqcols).mpr hqp]
  · refine Std.ExtTreeSet.ext_mem fun k => ?_
    rw [mem_scanKeys, mem_scanKeys, listed_of_failed hflushed, hflushed.memtables, if_pos hcf.symm]
    constructor
    · rintro (⟨p, hp⟩ | hlisted)
      · simp at hp
      · exact .inr hlisted
    · rintro (⟨p, hp⟩ | hlisted)
      · exact .inr (hsup keyspace table hcf k p (hcf ▸ hp)).2
      · exact .inr hlisted

theorem sameResults_of_superseded (h : e.Sound) (h' : e'.Sound) (hcols : e.DistinctColumns)
    (hsup : e.MemtableSuperseded cfName) : SameResults env format e e' := by
  intro keyspace table
  have hsame : SameKeys env format e e' keyspace table := by
    by_cases hcf : keyspace ++ "." ++ table = cfName
    · exact sameResults_superseded hflushed h h' hcols hsup hcf
    · exact sameResults_other hflushed h h' hcf
  refine ⟨hsame.1, ?_⟩
  rw [h.scan_eq, h'.scan_eq, hsame.2]
  simp only [hsame.1]

theorem superseded_of_sameResults (h : e.Sound) (h' : e'.Sound) (hcols : e.DistinctColumns)
    (hsame : SameResults env format e e') : e.MemtableSuperseded cfName := by
  intro keyspace table hcf k p hmem
  rw [← hcf] at hmem
  obtain ⟨hread, hscan⟩ := hsame keyspace table
  have hk := hread k
  rw [read_of_failed hflushed h' hcols hcf, h.read_eq_onDisk hcols, hmem] at hk
  have hpcols := hcols.memtables _ k p hmem
  constructor
  · cases hq : e.onDisk keyspace table k with
    | none => simp [hq] at hk
    | some q =>
      have hqcols := distinctColumns_onDisk hcols hq
      rw [hq, Option.elim_some, Option.elim_some, Option.some.injEq] at hk
      exact ⟨q, rfl, (mergeOlder_eq_right_iff hpcols hqcols).mp hk.symm⟩
  · -- the key is in the scan before, so some SSTable must list it
    have hsome : ∃ q, e.read env format keyspace table k = some q := by
      rw [h.read_eq_onDisk hcols, hmem]
      exact ⟨_, rfl⟩
    have hbefore : k ∈ (e.scan env format keyspace table).map Prod.fst :=
      h.mem_map_fst_scan.mpr ⟨(mem_scanKeys env format).mpr (.inl ⟨p, hmem⟩), hsome⟩
    rw [← hscan, h'.mem_map_fst_scan, mem_scanKeys] at hbefore
    rcases hbefore.1 with ⟨q, hq⟩ | hlisted
    · rw [hflushed.memtables, if_pos hcf.symm] at hq
      simp at hq
    · exact (listed_of_failed hflushed keyspace table k).mp hlisted

end FailedFlush

/-- The deletion of `deleting` is also in the SSTable `t`. -/
def redeleting (cfName : String) (t : SSTableHandle) : FileEngine :=
  { deleting cfName with sstables := [t], nextGeneration := 2 }

theorem sound_redeleting {cfName : String} (ht : t.generation = 1) :
    (redeleting cfName t).Sound where
  memtables := sound_deleting.memtables
  distinct := nodup_singleton _
  numbered t' ht' := by
    cases mem_singleton.mp ht'
    rw [ht]
    exact Nat.lt_succ_self 1
  cached := by simp [redeleting, deleting, KeyCache.new, Lru.entries_new]
  offsets := by simp [redeleting, deleting, KeyCache.new, Lru.entries_new]

def diskFull : Io := ⟨0, true, id, .refl⟩

theorem getPartition_deleting {cfName cfName' : String}
    (h : ((deleting cfName).memtables.activeData cfName').getPartition k = some p) :
    k = [0] ∧ p = empty.setTombstone 1 1 := by
  rw [← lookup_iterPartitions] at h
  by_cases hcf : cfName = cfName'
  · rw [← hcf, iterPartitions_deleting] at h
    by_cases hk : k = [0]
    · subst hk
      exact ⟨rfl, (Option.some.inj h).symm⟩
    · have hbeq : (k == [0]) = false := by simpa using hk
      rw [List.lookup, hbeq] at h
      cases h
  · rw [MemtableManager.activeData, active_deleting, if_neg hcf] at h
    cases h

omit [Lru] in
theorem distinctColumns_setTombstone_empty (ts : Int64) (ldt : Int32) :
    (empty.setTombstone ts ldt).DistinctColumns := by
  intro ck r hr
  simp [setTombstone, empty] at hr

omit [Lru] in
theorem cfName_inj_of_noDot {keyspace table keyspace' table' : String} (hks : '.' ∉ keyspace.toList)
    (htb : '.' ∉ table.toList)
    (h : keyspace' ++ "." ++ table' = keyspace ++ "." ++ table) :
    keyspace' = keyspace ∧ table' = table := by
  have hcount := congrArg (List.count '.') (congrArg String.toList h)
  rw [toList_cfName, toList_cfName, count_append, count_append, count_cons_self,
    count_cons_self, count_eq_zero.mpr hks, count_eq_zero.mpr htb] at hcount
  exact cfName_inj (count_eq_zero.mp (by omega)) hks h

/-- An engine where a flush may fail unnoticed. -/
theorem exists_superseded (env : WriterEnv) (format : SSTableFormat) {keyspace table : String}
    (hks : '.' ∉ keyspace.toList) (htb : '.' ∉ table.toList) :
    ∃ t, (redeleting (keyspace ++ "." ++ table) t).Sound ∧
      (redeleting (keyspace ++ "." ++ table) t).DistinctColumns ∧
      (redeleting (keyspace ++ "." ++ table) t).MemtableSuperseded (keyspace ++ "." ++ table) := by
  have hfits := @memtableFits_deleting _ (keyspace ++ "." ++ table)
  have hsize := @size_deleting _ (keyspace ++ "." ++ table) env
  have hkeys := keysIncrease_iterPartitions
    ((deleting (keyspace ++ "." ++ table)).memtables.activeData (keyspace ++ "." ++ table))
  have hne := cons_ne_nil (([0] : Bytes), empty.setTombstone 1 1) []
  obtain ⟨hnames, hlengths, hcount⟩ := hfits
  rw [iterPartitions_deleting] at hnames hlengths hcount hsize hkeys
  obtain ⟨t, hcreate⟩ := exists_create env format keyspace table 1 hne hkeys hlengths hcount hsize
  obtain ⟨⟨rfl, rfl, hgen⟩, hfind, hiter⟩ := create_spec hcreate hne hkeys hnames hlengths hcount
  refine ⟨t, sound_redeleting hgen, ⟨fun cf k p hp => ?_, fun t' ht' k p hp => ?_⟩, ?_⟩
  · rw [(getPartition_deleting hp).2]
    exact distinctColumns_setTombstone_empty 1 1
  · cases mem_singleton.mp ht'
    rw [hfind, Except.ok.injEq, TreeMap.lookup_eq_some_iff (by simp), mem_singleton,
      Prod.mk.injEq] at hp
    rw [hp.2]
    exact distinctColumns_setTombstone_empty 1 1
  · intro ks tb hcf k p hp
    obtain ⟨rfl, rfl⟩ := cfName_inj_of_noDot hks htb hcf
    obtain ⟨rfl, rfl⟩ := getPartition_deleting hp
    refine ⟨⟨empty.setTombstone 1 1, ?_, ?_⟩, ?_⟩
    · exact (mergeInto_none _ _ _ t).trans (lookup_eq_of_find hfind [0])
    · refine ⟨fun ck r hr => ?_, fun tomb htomb => ⟨tomb, htomb, .inr rfl⟩⟩
      simp [setTombstone, empty] at hr
    · exact ⟨t, mem_singleton_self t, ⟨rfl, rfl⟩, _, hiter, by simp⟩

/-- A flush that fails goes unnoticed exactly if the SSTables already hold what it has switched
out of reach. -/
theorem sameResults_iff_superseded (h : e.Sound) (hcols : e.DistinctColumns) {cfName : String}
    {io : Io} {err : EngineError}
    (hflush : e.flushCf (fileLayer env format) cfName io = (e', .error err)) :
    SameResults env format e e' ↔ e.MemtableSuperseded cfName := by
  have hflushed : e.FlushedTo e' cfName [] := by
    rcases flushCf_cases h.memtables hflush with ⟨-, hflushed⟩ | ⟨hok, -⟩ | ⟨hok, -⟩
    · exact hflushed
    · cases hok
    · cases hok
  have h' : e'.Sound := h.flushedTo hflushed nodup_nil (by simp)
  exact ⟨superseded_of_sameResults hflushed h h' hcols,
    sameResults_of_superseded hflushed h h' hcols⟩

end

attribute [local instance] RecencyList.lru

/-- The deletion of a partition is flushed in vain, and then read from the SSTable that already has
it. -/
theorem sameResults_iff_superseded_redeleting : ∃ t e',
    (redeleting "ks.t" t).flushCf (fileLayer tenBitsPerKey .big) "ks.t" diskFull =
        (e', .error (.sstable "i/o error")) ∧
      (redeleting "ks.t" t).MemtableSuperseded "ks.t" ∧
      SameResults tenBitsPerKey .big (redeleting "ks.t" t) e' := by
  obtain ⟨t, hsound, hcols, hsup⟩ :=
    @exists_superseded _ tenBitsPerKey .big "ks" "t" (by decide) (by decide)
  obtain ⟨e', hfailed⟩ : ∃ e', (redeleting "ks.t" t).flushCf (fileLayer tenBitsPerKey .big) "ks.t"
      diskFull = (e', .error (.sstable "i/o error")) := ⟨_, rfl⟩
  exact ⟨t, e', hfailed, hsup, (sameResults_iff_superseded hsound hcols hfailed).mpr hsup⟩

/-- The deletion of a partition is in the memtable only. After a flush that fails it is not read. -/
theorem not_sameResults_deleting : ∃ e',
    (deleting "ks.t").flushCf (fileLayer tenBitsPerKey .big) "ks.t" diskFull =
        (e', .error (.sstable "i/o error")) ∧
      ¬SameResults tenBitsPerKey .big (deleting "ks.t") e' := by
  refine ⟨_, rfl, fun hsame => ?_⟩
  have hread := congrArg Option.isSome ((hsame "ks" "t").1 [0])
  revert hread
  decide +kernel

end FileEngine

end CassandraVerified.Storage
