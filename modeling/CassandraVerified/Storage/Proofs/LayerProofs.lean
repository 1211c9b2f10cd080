import CassandraVerified.Storage.Format.Layer
import CassandraVerified.Storage.Proofs.BtiProofs
import CassandraVerified.Storage.Proofs.FlushProofs

/-!
# Proofs: reads and flushes over SSTable files

A read of the engine is a fold of lookups that do not depend on the key cache. The SSTable of a
flush is looked at first, and gives back what the memtable held.
-/

namespace CassandraVerified.Storage

open List SSTableHandle PartitionData MemtableManager

variable {t : SSTableHandle} {partitions : Source}

namespace SSTableHandle

theorem mergeInto_none (keyspace table : String) (partitionKey : Bytes) (h : SSTableHandle) :
    mergeInto keyspace table partitionKey none h = h.lookup keyspace table partitionKey := by
  unfold mergeInto
  cases h.lookup keyspace table partitionKey <;> rfl

end SSTableHandle

/-- The offsets in the cache are those of the indexes of the SSTables. -/
structure KeyCache.Sound [Lru] (c : KeyCache) (tables : List SSTableHandle) (next : Nat) : Prop where
  cached : ∀ x ∈ c.entries, x.1.1 < next
  offsets : ∀ x ∈ c.entries, ∀ r, big r ∈ tables → x.1.1 = r.generation →
    r.searchIndex x.1.2 = some x.2

section Read

variable [Lru] {c : KeyCache} (env : WriterEnv) (format : SSTableFormat) (keyspace table : String)
  (pk : Bytes) {tables : List SSTableHandle} {next : Nat}

section

variable (hdistinct : (tables.map generation).Nodup)

include hdistinct

section

variable (hnumbered : ∀ t ∈ tables, t.generation < next)

include hnumbered

theorem KeyCache.Sound.getPartition {r : BigReader} (ht : big r ∈ tables)
    (hc : c.Sound tables next) :
    (BigReader.getPartition c r pk).1 = r.lookup pk ∧
      (BigReader.getPartition c r pk).2.Sound tables next := by
  have hagrees : c.Agrees r := fun x hx hgen => hc.offsets x hx r ht hgen
  obtain ⟨hresult, hentries⟩ := BigReader.getPartition_spec hagrees pk
  refine ⟨hresult, fun x hx => ?_, fun x hx r' hr' hgen => ?_⟩
  · rcases hentries x hx with hold | ⟨hkey, -⟩
    · exact hc.cached x hold
    · rw [hkey]
      exact hnumbered _ ht
  · rcases hentries x hx with hold | ⟨hkey, hsearch⟩
    · exact hc.offsets x hold r' hr' hgen
    · -- the new entry is one of `r`, and no other table has its number
      rw [hkey] at hgen
      cases inj_on_of_nodup_map hdistinct ht hr' hgen
      rw [hkey]
      exact hsearch

theorem readSSTable_file (ht : t ∈ tables) (result : Option PartitionData)
    (hc : c.Sound tables next) :
    ∃ c', c'.Sound tables next ∧
      Engine.readSSTable (fileLayer env format) keyspace table pk (result, c) t =
        (SSTableHandle.mergeInto keyspace table pk result t, c') := by
  by_cases hbelongs : t.keyspace = keyspace ∧ t.table = table ∧ t.mightContainKey pk = true
  · have hlayer : (fileLayer env format).keyspace t = keyspace ∧
        (fileLayer env format).table t = table ∧
        (fileLayer env format).mightContainKey t pk = true := hbelongs
    rw [Engine.readSSTable, if_pos hlayer, SSTableHandle.mergeInto, SSTableHandle.lookup,
      if_pos hbelongs]
    cases t with
    | bti r =>
      refine ⟨c, hc, ?_⟩
      simp only [fileLayer, getPartition, find]
      rcases r.getPartition pk with err | (_ | p) <;> rfl
    | big r =>
      obtain ⟨hresult, hsound⟩ := hc.getPartition pk hdistinct hnumbered ht
      refine ⟨_, hsound, ?_⟩
      simp only [fileLayer, getPartition, find, hresult]
      rcases r.lookup pk with err | (_ | p) <;> rfl
  · have hlayer : ¬((fileLayer env format).keyspace t = keyspace ∧
        (fileLayer env format).table t = table ∧
        (fileLayer env format).mightContainKey t pk = true) := hbelongs
    rw [Engine.readSSTable, if_neg hlayer, SSTableHandle.mergeInto, SSTableHandle.lookup,
      if_neg hbelongs]
    exact ⟨c, hc, rfl⟩

theorem foldl_readSSTable_file {ts : List SSTableHandle} (hts : ts ⊆ tables)
    (result : Option PartitionData) (hc : c.Sound tables next) :
    ∃ c', c'.Sound tables next ∧
      ts.foldl (Engine.readSSTable (fileLayer env format) keyspace table pk) (result, c) =
        (ts.foldl (SSTableHandle.mergeInto keyspace table pk) result, c') := by
  induction ts generalizing result c with
  | nil => exact ⟨c, hc, rfl⟩
  | cons t ts ih =>
    obtain ⟨c', hc', hstep⟩ := readSSTable_file env format keyspace table pk hdistinct hnumbered
      (hts mem_cons_self) result hc
    rw [foldl_cons, foldl_cons, hstep]
    exact ih (fun x hx => hts (mem_cons_of_mem _ hx)) _ hc'

end

end

end Read

namespace SSTableHandle

theorem find_of_not_mightContainKey {h : SSTableHandle} {k : Bytes}
    (hk : ¬h.mightContainKey k = true) : h.find k = .ok none := by
  cases h with
  | big r => exact if_neg hk
  | bti r => exact if_neg hk

/-- The SSTable that is written for the partitions has all of them. A scan of it ends at an empty
key. -/
theorem create_spec {env : WriterEnv} {format : SSTableFormat} {keyspace table : String}
    {generation : Nat} (hcreate : create env format keyspace table generation partitions = .ok t)
    (hne : partitions ≠ []) (hkeys : partitions.KeysIncrease) (hnames : partitions.NamesFit)
    (hlengths : partitions.LengthsFit) (hcount : partitions.length < 2 ^ 32) :
    (t.keyspace = keyspace ∧ t.table = table ∧ t.generation = generation) ∧
      (∀ k, t.find k = .ok (partitions.lookup k)) ∧
      t.iterPartitions = .ok (partitions.takeWhile fun e => e.1 ≠ []) := by
  cases format with
  | big =>
    cases hwrite : writeBig env partitions with
    | error err => simp [create, hwrite, bind, Except.bind] at hcreate
    | ok files =>
      obtain ⟨r, hopen, hwritten, hnamed⟩ :=
        BigReader.openFiles_writeBig hwrite hlengths hcount keyspace table generation
      have ht : t = big r := by
        simpa [create, hwrite, hopen, bind, pure, Except.bind, Except.pure, Except.mapError,
          eq_comm] using hcreate
      subst ht
      refine ⟨hnamed, hwritten.lookup hkeys hnames hlengths, ?_⟩
      rw [iterPartitions, hwritten.iterPartitions hnames hlengths]
      rfl
  | bti =>
    cases hwrite : writeBti env partitions with
    | error err => simp [create, hwrite, bind, Except.bind] at hcreate
    | ok files =>
      obtain ⟨r, hopen, hwritten, hnamed⟩ :=
        BtiReader.openFiles_writeBti hwrite hne hkeys hcount keyspace table generation
      have ht : t = bti r := by
        simpa [create, hwrite, hopen, bind, pure, Except.bind, Except.pure, Except.mapError,
          eq_comm] using hcreate
      subst ht
      refine ⟨hnamed, hwritten.getPartition hkeys hnames hlengths, ?_⟩
      rw [iterPartitions, hwritten.iterPartitions hnames hlengths]
      rfl

/-- Partitions that fit can be written, unless the file becomes too large. -/
theorem exists_create (env : WriterEnv) (format : SSTableFormat) (keyspace table : String)
    (generation : Nat) (hne : partitions ≠ []) (hkeys : partitions.KeysIncrease)
    (hlengths : partitions.LengthsFit) (hcount : partitions.length < 2 ^ 32)
    (hsize : (dataFile env.crc32 partitions).length < 2 ^ 64) :
    ∃ t, create env format keyspace table generation partitions = .ok t := by
  cases format with
  | big =>
    have hwrite : writeBig env partitions = .ok _ := if_pos hsize
    obtain ⟨r, hopen, -⟩ :=
      BigReader.openFiles_writeBig hwrite hlengths hcount keyspace table generation
    refine ⟨big r, ?_⟩
    simp only [create, hwrite, hopen, bind, pure, Except.bind, Except.pure, Except.mapError]
  | bti =>
    have hwrite : writeBti env partitions = .ok _ := if_pos hsize
    obtain ⟨r, hopen, -⟩ :=
      BtiReader.openFiles_writeBti hwrite hne hkeys hcount keyspace table generation
    refine ⟨bti r, ?_⟩
    simp only [create, hwrite, hopen, bind, pure, Except.bind, Except.pure, Except.mapError]

theorem lookup_eq_of_find (h : ∀ k, t.find k = .ok (partitions.lookup k)) (k : Bytes) :
    t.lookup t.keyspace t.table k = partitions.lookup k := by
  by_cases hk : t.mightContainKey k = true
  · rw [lookup, if_pos ⟨rfl, rfl, hk⟩, h k]
    rfl
  · rw [lookup, if_neg fun hand => hk hand.2.2]
    exact Except.ok.inj ((find_of_not_mightContainKey hk).symm.trans (h k))

end SSTableHandle

namespace FileEngine

section

variable [Lru] {env : WriterEnv} {format : SSTableFormat} {e e' : FileEngine}
  {keyspace table : String}

theorem Sound.read_eq (h : e.Sound) (pk : Bytes) : e.read env format keyspace table pk =
      e.sstables.reverse.foldl (SSTableHandle.mergeInto keyspace table pk)
        ((e.memtables.activeData (keyspace ++ "." ++ table)).getPartition pk) := by
  have hcache : e.cache.Sound e.sstables e.nextGeneration := ⟨h.cached, h.offsets⟩
  obtain ⟨c', -, hfold⟩ := foldl_readSSTable_file env format keyspace table pk h.distinct
    h.numbered (fun t ht => mem_reverse.mp ht)
    ((e.memtables.activeData (keyspace ++ "." ++ table)).getPartition pk) hcache
  rw [FileEngine.read, Engine.readPartition]
  simp only [contents_getOrCreate, hfold]

/-- A flush keeps the engine sound. -/
theorem Sound.flushedTo (h : e.Sound) {cfName : String} {new : List SSTableHandle}
    (hflushed : e.FlushedTo e' cfName new) (hdistinct : (new.map generation).Nodup)
    (hnew : ∀ t ∈ new, e.nextGeneration ≤ t.generation ∧ t.generation < e'.nextGeneration) :
    e'.Sound where
  memtables := hflushed.numbered
  distinct := by
    rw [hflushed.sstables, map_append, nodup_append]
    refine ⟨h.distinct, hdistinct, fun g hg g' hg' => ?_⟩
    obtain ⟨t, ht, rfl⟩ := mem_map.mp hg
    obtain ⟨t', ht', rfl⟩ := mem_map.mp hg'
    exact Nat.ne_of_lt (Nat.lt_of_lt_of_le (h.numbered t ht) (hnew t' ht').1)
  numbered t ht := by
    rw [hflushed.sstables] at ht
    rcases mem_append.mp ht with hold | hnew'
    · exact Nat.lt_of_lt_of_le (h.numbered t hold) hflushed.generation
    · exact (hnew t hnew').2
  cached c hc := by
    rw [hflushed.cache] at hc
    exact Nat.lt_of_lt_of_le (h.cached c hc) hflushed.generation
  offsets c hc r hr hgen := by
    rw [hflushed.cache] at hc
    rw [hflushed.sstables] at hr
    rcases mem_append.mp hr with hold | hnew'
    · exact h.offsets c hc r hold hgen
    · -- no offset of a table that did not exist has been cached
      have hlt := h.cached c hc
      have hle : e.nextGeneration ≤ r.generation := (hnew _ hnew').1
      omega

theorem Sound.read_flushedTo (h : e'.Sound) {new : List SSTableHandle}
    (hflushed : e.FlushedTo e' (keyspace ++ "." ++ table) new) (pk : Bytes) :
    e'.read env format keyspace table pk =
      e.sstables.reverse.foldl (SSTableHandle.mergeInto keyspace table pk)
        (new.reverse.foldl (SSTableHandle.mergeInto keyspace table pk) none) := by
  rw [h.read_eq, hflushed.sstables, hflushed.memtables, if_pos rfl, reverse_append, foldl_append]
  rfl

omit [Lru] in
theorem keysIncrease_iterPartitions (data : MemtableData) :
    Source.KeysIncrease data.iterPartitions :=
  Std.ExtTreeMap.ordered_keys_toList

omit [Lru] in
theorem lookup_iterPartitions (data : MemtableData) (pk : Bytes) :
    List.lookup pk data.iterPartitions = data.getPartition pk := by
  rw [MemtableData.iterPartitions, TreeMap.lookup_toList, MemtableData.getPartition]

/-- With a keyspace whose name has no dot, no read of the table notices a flush. -/
theorem flushTransparent_of_noDot (env : WriterEnv) (format : SSTableFormat) (table : String)
    (hks : '.' ∉ keyspace.toList) : FlushTransparent env format keyspace table := by
  intro e e' io hsound hfits hflush pk
  rcases Engine.flushCf_cases hsound.memtables hflush with
    ⟨hfailed, -⟩ | ⟨-, hempty, hflushed, hgen⟩ | ⟨-, hne, hgen, t, hcreate, hflushed⟩
  · exact absurd rfl hfailed
  · have hsound' : e'.Sound := hsound.flushedTo hflushed nodup_nil (by simp)
    have hnone : (e.memtables.activeData (keyspace ++ "." ++ table)).getPartition pk = none := by
      rw [← lookup_iterPartitions, hempty]
      rfl
    rw [hsound'.read_flushedTo hflushed, hsound.read_eq, hnone]
    rfl
  · rw [splitCfName_cfName hks] at hcreate
    obtain ⟨⟨hkeyspace, htable, hgeneration⟩, hfind, -⟩ := create_spec hcreate hne
      (keysIncrease_iterPartitions _) hfits.names hfits.lengths hfits.count
    have hsound' : e'.Sound := hsound.flushedTo hflushed (nodup_singleton _) fun t' ht' => by
      obtain rfl := mem_singleton.mp ht'
      omega
    have hlookup : t.lookup keyspace table pk =
        (e.memtables.activeData (keyspace ++ "." ++ table)).getPartition pk := by
      rw [← lookup_iterPartitions, ← lookup_eq_of_find hfind, hkeyspace, htable]
    -- the new SSTable alone gives what the memtable held
    rw [hsound'.read_flushedTo hflushed, hsound.read_eq, reverse_singleton, foldl_cons,
      foldl_nil, mergeInto_none, hlookup]

/-- An engine that holds nothing but the deletion of one partition, in the memtable. -/
def deleting (cfName : String) : FileEngine where
  commitlog := .openLog {} ∅
  memtables := ((new 0).createActive cfName 0).write ⟨1, 0⟩ [0] [.tombstone 1 1]
  sstables := []
  nextGeneration := 1
  cache := .new

section Deleting

variable {cfName : String}

theorem active_deleting (cf : String) : (deleting cfName).memtables.active[cf]? =
    if cfName = cf then some ⟨1, 0⟩ else none := by
  simp [deleting, write, createActive, new, Std.ExtTreeMap.getElem?_insert]

theorem activeData_deleting :
    (deleting cfName).memtables.activeData cfName = MemtableData.empty.write [0] (.tombstone 1 1) := by
  rw [activeData, active_deleting, if_pos rfl]
  rfl

theorem iterPartitions_deleting : ((deleting cfName).memtables.activeData cfName).iterPartitions =
    [([0], empty.setTombstone 1 1)] := by
  rw [activeData_deleting]
  rfl

theorem sound_deleting : (deleting cfName).Sound where
  memtables cf mt hmt := by
    rw [active_deleting] at hmt
    split at hmt <;> cases hmt
    exact Nat.lt_succ_self 1
  distinct := nodup_nil
  numbered := by simp [deleting]
  cached := by simp [deleting, KeyCache.new, Lru.entries_new]
  offsets := by simp [deleting]

theorem memtableFits_deleting : (deleting cfName).MemtableFits cfName where
  names := by
    rw [iterPartitions_deleting]
    intro x hx ck r hr
    cases mem_singleton.mp hx
    simp [setTombstone, empty] at hr
  lengths := by
    rw [iterPartitions_deleting]
    intro x hx
    cases mem_singleton.mp hx
    refine ⟨by decide, fun ck r hr => ?_⟩
    simp [setTombstone, empty] at hr
  count := by
    rw [iterPartitions_deleting]
    decide

theorem size_deleting (env : WriterEnv) :
    (dataFile env.crc32 ((deleting cfName).memtables.activeData cfName).iterPartitions).length <
      2 ^ 64 := by
  have hbody : (dataBody [([0], empty.setTombstone 1 1)]).length < 100 := by decide
  rw [iterPartitions_deleting, dataFile, length_append, Wire.length_beBytes]
  omega

end Deleting

/-- A keyspace whose name has a dot loses what is flushed: the SSTable gets another name. -/
theorem not_flushTransparent_of_dot (env : WriterEnv) (format : SSTableFormat) (table : String)
    (hks : '.' ∈ keyspace.toList) : ¬FlushTransparent env format keyspace table := by
  intro htransparent
  have hsound : (deleting (keyspace ++ "." ++ table)).Sound := sound_deleting
  have hfits : (deleting (keyspace ++ "." ++ table)).MemtableFits _ := memtableFits_deleting
  have hne : ((deleting (keyspace ++ "." ++ table)).memtables.activeData
      (keyspace ++ "." ++ table)).iterPartitions ≠ [] := by
    rw [iterPartitions_deleting]
    exact cons_ne_nil _ _
  -- the flush succeeds
  obtain ⟨t, hcreate⟩ := exists_create env format
    (splitCfName (keyspace ++ "." ++ table)).1 (splitCfName (keyspace ++ "." ++ table)).2 1 hne
    (keysIncrease_iterPartitions _) hfits.lengths hfits.count (size_deleting env)
  let io : Io := ⟨0, false, id, .refl⟩
  have hok : ((deleting (keyspace ++ "." ++ table)).flushCf (fileLayer env format)
      (keyspace ++ "." ++ table) io).2 = .ok () :=
    Engine.flushCf_of_create hsound.memtables rfl hcreate
  obtain ⟨e', hflush⟩ : ∃ e', (deleting (keyspace ++ "." ++ table)).flushCf (fileLayer env format)
      (keyspace ++ "." ++ table) io = (e', .ok ()) := ⟨_, Prod.ext rfl hok⟩
  have hsame := htransparent _ _ io hsound hfits hflush [0]
  rcases Engine.flushCf_cases hsound.memtables hflush with
    ⟨hfailed, -⟩ | ⟨-, hempty, -⟩ | ⟨-, -, hgen, t', hcreate', hflushed⟩
  · exact hfailed rfl
  · exact hne hempty
  · obtain ⟨⟨hkeyspace, -, hgeneration⟩, -⟩ := create_spec hcreate' hne
      (keysIncrease_iterPartitions _) hfits.names hfits.lengths hfits.count
    have hsound' := hsound.flushedTo hflushed (nodup_singleton _) fun t'' ht'' => by
      obtain rfl := mem_singleton.mp ht''
      omega
    -- but its SSTable is of another keyspace
    have hother : t'.keyspace ≠ keyspace := fun heq => by
      rw [← heq, hkeyspace] at hks
      exact (splitCfName_spec keyspace table).1 hks
    have hlookup : t'.lookup keyspace table [0] = none := if_neg fun hand => hother hand.1
    rw [hsound'.read_flushedTo hflushed, hsound.read_eq, reverse_singleton, foldl_cons,
      foldl_nil, mergeInto_none, hlookup, activeData_deleting] at hsame
    have hmemtable : (none : Option PartitionData) = some (empty.setTombstone 1 1) := hsame
    cases hmemtable

/-- No read of a table notices its flush, in either format, exactly if the name of the keyspace has
no dot. -/
theorem flushTransparent_iff (env : WriterEnv) (format : SSTableFormat) (keyspace table : String) :
    FlushTransparent env format keyspace table ↔ '.' ∉ keyspace.toList := by
  constructor
  · intro h hks
    exact not_flushTransparent_of_dot env format table hks h
  · exact flushTransparent_of_noDot env format table

end

attribute [local instance] RecencyList.lru

/-- What was written to the table `c` of the keyspace `a.b` is flushed as the table `b.c` of `a`. -/
theorem not_flushTransparent_dottedKeyspace : ¬FlushTransparent tenBitsPerKey .big "a.b" "c" :=
  not_flushTransparent_of_dot _ .big "c" (by decide)

end FileEngine

end CassandraVerified.Storage
