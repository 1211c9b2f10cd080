import CassandraVerified.Lib.Crc32
import CassandraVerified.Storage.Format.Big
import CassandraVerified.Storage.Proofs.BloomProofs
import CassandraVerified.Storage.Proofs.DataSizeProofs

/-!
# Proofs: the Big format

As long as the entries of the key cache are those that the indexes give, a read with the cache is a
read without it, and leaves such a cache behind. The files give back the partitions they were
written for exactly if no partition has the empty key and everything fits the fields of 32 bits.
-/

namespace CassandraVerified.Storage

open List
open Wire (beBytes Reader)
open Wire.Reader (Reads LoopRun)
open BigReader PartitionData

variable {env : WriterEnv} {partitions : Source} {r : BigReader}

theorem run_readIndexEntry {e : Bytes × Nat} (hkey : e.1.length < 2 ^ 32) (hoffset : e.2 < 2 ^ 64)
    (entries : List (Bytes × Nat)) (rest : Bytes) :
    (readIndexEntry entries).run (writeIndexEntry e ++ rest) = .ok (.inl (entries ++ [e]), rest) := by
  have hlong : ¬ (writeIndexEntry e ++ rest).length < 4 := by
    simp only [writeIndexEntry, length_append, Wire.length_beBytes]
    omega
  have hget : (get : FileReader Bytes).run (writeIndexEntry e ++ rest) =
    .ok (writeIndexEntry e ++ rest, writeIndexEntry e ++ rest) := rfl
  have hbytes : writeIndexEntry e ++ rest = writeBytes e.1 ++ (beBytes 8 e.2 ++ rest) := by
    simp [writeIndexEntry, writeBytes]
  unfold readIndexEntry
  rw [Reader.run_bind_of_ok hget, if_neg hlong, hbytes,
    Reader.run_bind_of_ok (reads_bytes hkey _), Reader.run_bind_of_ok (reads_uint hoffset _)]
  rfl

variable {entries : List (Bytes × Nat)}

section

variable (h : ∀ e ∈ entries, e.1.length < 2 ^ 32 ∧ e.2 < 2 ^ 64)

include h

theorem loopRun_readIndexEntry
    (before : List (Bytes × Nat)) :
    LoopRun readIndexEntry before (entries.flatMap writeIndexEntry) (before ++ entries) [] := by
  induction entries generalizing before with
  | nil =>
    refine .done ?_
    rw [append_nil]
    rfl
  | cons e entries ih =>
    obtain ⟨hkey, hoffset⟩ := h e mem_cons_self
    have hrest := ih (fun x hx => h x (mem_cons_of_mem _ hx)) (before ++ [e])
    rw [append_assoc, singleton_append] at hrest
    rw [flatMap_cons]
    refine .next (run_readIndexEntry hkey hoffset before _) ?_ hrest
    simp only [writeIndexEntry, length_append, Wire.length_beBytes]
    omega

theorem loadIndex_indexFile : loadIndex (indexFile entries) = .ok entries := by
  have hmagic : Reads (readExact 4) indexMagic indexMagic := reads_exact indexMagic
  simp only [loadIndex, indexFile]
  rw [Reader.run_bind_of_ok (hmagic _), if_neg (not_not_intro rfl),
    (loopRun_readIndexEntry h []).run]
  rfl

end

theorem Source.KeysIncrease.nodup {s : Source} (h : s.KeysIncrease) : (s.map Prod.fst).Nodup := by
  refine pairwise_map.mpr (List.Pairwise.imp ?_ h)
  intro a b hab heq
  simp [heq] at hab

/-- What was written for a list of partitions and then opened. -/
structure BigReader.Written (env : WriterEnv) (r : BigReader) (partitions : Source) : Prop where
  data : r.data = dataFile env.crc32 partitions
  bloom : r.bloom = .ofKeys env.sizing (partitions.map Prod.fst)
  index : r.index = dataOffsets dataHeader.length partitions

theorem BigReader.openFiles_eq {sizing : BloomSizing} {keys : List Bytes}
    {offsets : List (Bytes × Nat)} {files : BigFiles}
    (hfilter : files.filter = (BloomFilter.ofKeys sizing keys).file)
    (hindex : files.index = indexFile offsets) (hcount : keys.length < 2 ^ 32)
    (hoffsets : ∀ e ∈ offsets, e.1.length < 2 ^ 32 ∧ e.2 < 2 ^ 64) (keyspace table : String)
    (generation : Nat) :
    openFiles keyspace table generation files = .ok
      { keyspace, table, generation, data := files.data, bloom := .ofKeys sizing keys,
        index := offsets } := by
  simp only [openFiles, hfilter, hindex, BloomFilter.load_file_ofKeys sizing hcount,
    loadIndex_indexFile hoffsets]

theorem key_of_mem_entryOffsets {α : Type} {write : Bytes × α → Bytes} {offset : Nat}
    {entries : List (Bytes × α)} {e : Bytes × Nat} (h : e ∈ entryOffsets write offset entries) :
    ∃ x ∈ entries, x.1 = e.1 := by
  have hkey := mem_map_of_mem (f := Prod.fst) h
  rw [map_fst_entryOffsets] at hkey
  exact mem_map.mp hkey

/-- The files of a list of partitions that fit can be opened. -/
theorem BigReader.openFiles_writeBig {files : BigFiles}
    (hwrite : writeBig env partitions = .ok files) (hlengths : partitions.LengthsFit)
    (hcount : partitions.length < 2 ^ 32) (keyspace table : String) (generation : Nat) :
    ∃ r, openFiles keyspace table generation files = .ok r ∧ r.Written env partitions ∧
      r.keyspace = keyspace ∧ r.table = table ∧ r.generation = generation := by
  unfold writeBig at hwrite
  split at hwrite
  · next hsize =>
    cases hwrite
    have hoffsets : ∀ e ∈ dataOffsets dataHeader.length partitions,
        e.1.length < 2 ^ 32 ∧ e.2 < 2 ^ 64 := by
      intro e he
      obtain ⟨x, hx, hkey⟩ := key_of_mem_entryOffsets he
      exact ⟨hkey ▸ (hlengths x hx).1, entryOffsets_lt hsize he⟩
    have hkeys : (partitions.map Prod.fst).length < 2 ^ 32 := by rwa [length_map]
    rw [openFiles_eq rfl rfl hkeys hoffsets]
    exact ⟨_, rfl, ⟨rfl, rfl, rfl⟩, rfl, rfl, rfl⟩
  · cases hwrite

/-- The filter, then the offsets, then the data file. -/
theorem read_offsets_dataFile (env : WriterEnv) (unexpected : String)
    (hkeys : partitions.KeysIncrease) (hnames : partitions.NamesFit)
    (hlengths : partitions.LengthsFit) (k : Bytes) :
    (if (BloomFilter.ofKeys env.sizing (partitions.map Prod.fst)).mightContain k then
      match (dataOffsets dataHeader.length partitions).lookup k with
      | none => Except.ok none
      | some offset => readPartitionAt unexpected (dataFile env.crc32 partitions) offset k
    else Except.ok none) = Except.ok (partitions.lookup k) := by
  have hmap := map_fst_dataOffsets dataHeader.length partitions
  by_cases hk : k ∈ partitions.map Prod.fst
  · rw [if_pos (BloomFilter.mightContain_ofKeys _ hk)]
    rw [← hmap] at hk
    obtain ⟨e, he, rfl⟩ := mem_map.mp hk
    have hnodup : ((dataOffsets dataHeader.length partitions).map Prod.fst).Nodup :=
      hmap.symm ▸ hkeys.nodup
    rw [(TreeMap.lookup_eq_some_iff hnodup).mpr he]
    exact readPartitionAt_dataFile _ _ hkeys.nodup hnames hlengths he
  · rw [TreeMap.lookup_eq_none_iff.mpr (hmap ▸ hk), TreeMap.lookup_eq_none_iff.mpr hk]
    split <;> rfl

namespace BigReader

theorem searchIndex_eq (h : r.index.Pairwise fun a b => compare a.1 b.1 = .lt)
    (k : Bytes) : r.searchIndex k = r.index.lookup k := by
  have hnodup : (r.index.map Prod.fst).Nodup := by
    refine pairwise_map.mpr (h.imp ?_)
    intro a b hab heq
    simp [heq] at hab
  rw [searchIndex, BinarySearch.search_eq_find? h]
  cases hfind : r.index.find? fun e => compare e.1 k = .eq with
  | none =>
    rw [Option.map_none, eq_comm]
    refine TreeMap.lookup_eq_none_iff.mpr fun hk => ?_
    obtain ⟨e, he, rfl⟩ := mem_map.mp hk
    exact absurd (List.find?_eq_none.mp hfind e he) (by simp)
  | some e =>
    have heq : e.1 = k := by simpa using List.find?_some hfind
    rw [Option.map_some, eq_comm, TreeMap.lookup_eq_some_iff hnodup, ← heq]
    exact mem_of_find?_eq_some hfind

theorem pairwise_entryOffsets {α : Type} {write : Bytes × α → Bytes} {offset : Nat}
    {entries : List (Bytes × α)} (h : entries.Pairwise fun a b => compare a.1 b.1 = .lt) :
    (entryOffsets write offset entries).Pairwise fun a b => compare a.1 b.1 = .lt := by
  have hkeys : (entries.map Prod.fst).Pairwise fun a b => compare a b = .lt := pairwise_map.mpr h
  rw [← @map_fst_entryOffsets α write offset] at hkeys
  exact pairwise_map.mp hkeys

section

variable (h : r.Written env partitions)

include h

theorem Written.searchIndex (hkeys : partitions.KeysIncrease) (k : Bytes) :
    r.searchIndex k = (dataOffsets dataHeader.length partitions).lookup k := by
  have hsorted := @pairwise_entryOffsets _ writeEntry dataHeader.length _ hkeys
  rw [searchIndex_eq (h.index ▸ hsorted), h.index]

theorem Written.lookup (hkeys : partitions.KeysIncrease) (hnames : partitions.NamesFit)
    (hlengths : partitions.LengthsFit) (k : Bytes) :
    r.lookup k = .ok (partitions.lookup k) := by
  rw [BigReader.lookup, h.searchIndex hkeys, mightContainKey, h.bloom]
  simp only [readAt, h.data]
  exact read_offsets_dataFile env _ hkeys hnames hlengths k

theorem Written.iterPartitions (hnames : partitions.NamesFit) (hlengths : partitions.LengthsFit) :
    r.iterPartitions = .ok (partitions.takeWhile fun e => e.1 ≠ []) := by
  rw [BigReader.iterPartitions, h.data, scanPartitions_dataFile _ hnames hlengths]

end

end BigReader

/-- With a cache that agrees, a read gives what it gives without, and adds at most the index entry
of the key. -/
theorem BigReader.getPartition_spec [Lru] {c : KeyCache} (h : c.Agrees r) (k : Bytes) :
    (getPartition c r k).1 = r.lookup k ∧ ∀ e ∈ (getPartition c r k).2.entries,
      e ∈ c.entries ∨ e.1 = (r.generation, k) ∧ r.searchIndex k = some e.2 := by
  unfold getPartition lookup
  split
  · next hmight =>
    cases hget : (c.get r.generation k).1 with
    | some offset =>
      have hsearch : r.searchIndex k = some offset := h _ (Lru.mem_of_get hget) rfl
      rw [← Prod.mk.eta (p := c.get r.generation k), hget]
      exact ⟨by rw [hsearch], fun e he => .inl (Lru.mem_entries_of_get he)⟩
    | none =>
      have hsame : (c.get r.generation k).2 = c := Lru.get_of_none hget
      rw [← Prod.mk.eta (p := c.get r.generation k), hget, hsame]
      cases hsearch : r.searchIndex k with
      | none => exact ⟨rfl, fun e he => .inl he⟩
      | some offset =>
        simp only
        split
        · next p hread =>
          refine ⟨hread.symm, fun e he => ?_⟩
          rcases Lru.mem_entries_of_put he with rfl | ⟨hold, -⟩
          · exact .inr ⟨rfl, rfl⟩
          · exact .inl hold
        · exact ⟨rfl, fun e he => .inl he⟩
  · exact ⟨rfl, fun e he => .inl he⟩

/-- A writer whose filters take ten bits and seven hashes for each key. -/
def tenBitsPerKey : WriterEnv where
  crc32 := Crc32.crc32
  sizing := ⟨fun n => 10 * n, fun _ => 7, fun n => Nat.le_succ (10 * n)⟩

namespace BigFiles

variable {files : BigFiles}

theorem data_of_openFiles {keyspace table : String} {generation : Nat}
    (h : openFiles keyspace table generation files = .ok r) : r.data = files.data := by
  unfold openFiles at h
  split at h
  · cases h
  · split at h
    · cases h
    · cases h
      rfl

theorem data_of_writeBig (h : writeBig env partitions = .ok files) :
    files.data = dataFile env.crc32 partitions := by
  unfold writeBig at h
  split at h
  · cases h
    rfl
  · cases h

section

variable [Lru]

theorem roundTrips_of_fits (hkeys : partitions.KeysIncrease) (hnames : partitions.NamesFit)
    (hcount : partitions.length < 2 ^ 32) (hwrite : writeBig env partitions = .ok files)
    (hne : ∀ e ∈ partitions, e.1 ≠ []) (hlengths : partitions.LengthsFit) :
    files.RoundTrips partitions := by
  intro keyspace table generation
  obtain ⟨r, hopen, hwritten, -⟩ :=
    openFiles_writeBig hwrite hlengths hcount keyspace table generation
  refine ⟨r, hopen, ?_, fun cache hcache k => ?_⟩
  · rw [hwritten.iterPartitions hnames hlengths,
      takeWhile_eq_self_iff.mpr fun e he => by simpa using hne e he]
  · rw [(getPartition_spec hcache k).1, hwritten.lookup hkeys hnames hlengths]

theorem fits_of_roundTrips (hnames : partitions.NamesFit)
    (hwrite : writeBig env partitions = .ok files) (h : files.RoundTrips partitions) :
    (∀ e ∈ partitions, e.1 ≠ []) ∧ partitions.LengthsFit := by
  obtain ⟨r, hopen, hiter, -⟩ := h "" "" 0
  rw [iterPartitions, data_of_openFiles hopen, data_of_writeBig hwrite] at hiter
  have hlengths := lengthsFit_of_scanPartitions hiter
  rw [scanPartitions_dataFile _ hnames hlengths, Except.ok.injEq, takeWhile_eq_self_iff] at hiter
  exact ⟨fun e he => by simpa using hiter e he, hlengths⟩

/-- The files of partitions with increasing keys, column names of at most 65535 bytes and a count
that fits 32 bits are read back iff no key is empty and the lengths and counts in the data file fit
their 32 bits. -/
theorem roundTrips_iff (env : WriterEnv) (partitions : Source) (files : BigFiles)
    (hkeys : partitions.KeysIncrease) (hnames : partitions.NamesFit)
    (hcount : partitions.length < 2 ^ 32) (hwrite : writeBig env partitions = .ok files) :
    files.RoundTrips partitions ↔ (∀ e ∈ partitions, e.1 ≠ []) ∧ partitions.LengthsFit := by
  constructor
  · exact fits_of_roundTrips hnames hwrite
  · rintro ⟨hne, hlengths⟩
    exact roundTrips_of_fits hkeys hnames hcount hwrite hne hlengths

end

def oneCell : Row where
  clusteringKey := [5]
  cells := [{ column := "v", value := some [7], timestamp := 1, ttl := 0,
              localDeletionTime := none, isTombstone := false }]
  isTombstone := false
  localDeletionTime := none

/-- A deleted partition, and one with a row. -/
def deletedAndLive : Source := [([1], empty.setTombstone 1 1), ([2], empty.applyRow oneCell)]

theorem rows_deletedAndLive {e : Bytes × PartitionData} (he : e ∈ deletedAndLive) {ck : Bytes}
    {r : Row} (hr : e.2.rows[ck]? = some r) : r = oneCell := by
  rcases mem_cons.mp he with rfl | he
  · simp at hr
  · obtain rfl := mem_singleton.mp he
    rw [getElem?_applyRow, rows_empty] at hr
    split at hr
    · exact (Option.some.inj hr).symm
    · cases hr

theorem namesFit_deletedAndLive : deletedAndLive.NamesFit := by
  intro e he ck r hr c hc
  obtain rfl := rows_deletedAndLive he hr
  obtain rfl := mem_singleton.mp hc
  change (nameBytes "v").length ≤ 65535
  decide

theorem lengthsFit_deletedAndLive : deletedAndLive.LengthsFit := by
  have hkey : ∀ e ∈ deletedAndLive, e.1.length < 2 ^ 32 := by decide
  refine fun e he => ⟨hkey e he, fun ck r hr => ?_⟩
  obtain rfl := rows_deletedAndLive he hr
  refine ⟨by decide, by decide, fun c hc v hv => ?_⟩
  obtain rfl := mem_singleton.mp hc
  cases hv
  decide

attribute [local instance] RecencyList.lru

theorem roundTrips_iff_deletedAndLive :
    ∃ files, writeBig tenBitsPerKey deletedAndLive = .ok files ∧ files.RoundTrips deletedAndLive := by
  have hwrite : writeBig tenBitsPerKey deletedAndLive = .ok _ := if_pos (by decide)
  refine ⟨_, hwrite, ?_⟩
  exact (roundTrips_iff _ _ _ (by decide) namesFit_deletedAndLive (by decide) hwrite).mpr
    ⟨by decide, lengthsFit_deletedAndLive⟩

/-- The empty key is taken for the end of the data. -/
theorem not_roundTrips_emptyKey :
    ∃ files, writeBig tenBitsPerKey [([], empty.setTombstone 1 1)] = .ok files ∧
      ¬files.RoundTrips [([], empty.setTombstone 1 1)] := by
  have hwrite : writeBig tenBitsPerKey [([], empty.setTombstone 1 1)] = .ok _ := if_pos (by decide)
  refine ⟨_, hwrite, fun h => ?_⟩
  have hnames : Source.NamesFit [([], empty.setTombstone 1 1)] := by
    intro e he ck r hr
    obtain rfl := mem_singleton.mp he
    simp at hr
  exact (fits_of_roundTrips hnames hwrite h).1 _ mem_cons_self rfl

end BigFiles

end CassandraVerified.Storage
