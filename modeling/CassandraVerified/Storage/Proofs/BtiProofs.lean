import CassandraVerified.Storage.Format.Bti
import CassandraVerified.Storage.Proofs.BigProofs

/-!
# Proofs: the BTI format

A trie finds what was inserted into it, and is read back from its file, so that a reader of the
files of `writeBti` finds the partitions that were written.
-/

namespace CassandraVerified.Storage

open List
open Wire (beBytes Reader)
open Wire.Reader (Reads)
open TrieChildren TrieNode

variable {n : TrieNode} {cs : TrieChildren} {env : WriterEnv} {partitions : Source}

/-- The node has an offset or children. Only such nodes are written. -/
def TrieNode.Holds (n : TrieNode) : Prop := n.content.isSome = true ∨ n.children.isEmpty = false

mutual

/-- Offsets fit their field, and no child is empty. -/
def TrieNode.Fits : TrieNode → Prop
  | .node dataOffset children => (∀ o ∈ dataOffset, o < 2 ^ 64) ∧ TrieChildren.Fits children

def TrieChildren.Fits : TrieChildren → Prop
  | .nil => True
  | .cons _ child rest => TrieNode.Holds child ∧ TrieNode.Fits child ∧ TrieChildren.Fits rest

end

theorem TrieNode.fits_new : Fits new := ⟨by simp, trivial⟩

theorem TrieChildren.fits_alter : ∀ {cs : TrieChildren}, Fits cs → ∀ (b : UInt8)
    {f : Option TrieNode → TrieNode},
    (∀ o : Option TrieNode, (∀ n ∈ o, n.Fits) → (f o).Holds ∧ (f o).Fits) → Fits (cs.alter b f)
  | .nil, _, b, f, hf => by
    obtain ⟨hholds, hfits⟩ := hf none (by simp)
    exact ⟨hholds, hfits, trivial⟩
  | .cons byte child rest, hw, b, f, hf => by
    rw [TrieForest.alter]
    split
    · obtain ⟨hholds, hfits⟩ := hf none (by simp)
      exact ⟨hholds, hfits, hw⟩
    · obtain ⟨hholds, hfits⟩ := hf (some child) (by simpa using hw.2.1)
      exact ⟨hholds, hfits, hw.2.2⟩
    · exact ⟨hw.1, hw.2.1, fits_alter hw.2.2 b hf⟩

namespace TrieNode

theorem insert_spec (key : Bytes) {offset : Nat} (hoffset : offset < 2 ^ 64) (h : n.Fits) :
    (n.insert key offset).Holds ∧ (n.insert key offset).Fits := by
  induction key generalizing n with
  | nil =>
    cases n with
    | node o cs => exact ⟨.inl rfl, by simpa using hoffset, h.2⟩
  | cons b key ih =>
    cases n with
    | node o cs =>
      refine ⟨.inr (cs.isEmpty_alter b _), h.1, fits_alter h.2 b fun o ho => ?_⟩
      cases o with
      | none => exact ih fits_new
      | some child => exact ih (ho child rfl)

theorem lookup_new (key : Bytes) : lookup key new = none := Trie.get_empty key

theorem lookup_insert (key : Bytes) (offset : Nat) (h : n.WellFormed) (k : Bytes) :
    (n.insert key offset).lookup k = if key = k then some offset else n.lookup k := by
  split
  · next hk =>
    subst hk
    exact Trie.get_alter_self _ key h
  · next hk => exact Trie.get_alter_of_ne _ (Ne.symm hk) h

variable {entries : List (Bytes × Nat)}

theorem foldl_insert (hkeys : (entries.map Prod.fst).Nodup) (h : n.WellFormed) :
    (entries.foldl (fun root e => root.insert e.1 e.2) n).WellFormed ∧
      ∀ k, (entries.foldl (fun root e => root.insert e.1 e.2) n).lookup k =
        (entries.lookup k).or (n.lookup k) := by
  induction entries generalizing n with
  | nil => exact ⟨h, fun k => rfl⟩
  | cons e entries ih =>
    rw [map_cons, nodup_cons] at hkeys
    obtain ⟨hwell, hlookup⟩ := ih hkeys.2 (Trie.wellFormed_alter (fun _ => e.2) e.1 h)
    refine ⟨hwell, fun k => ?_⟩
    rw [foldl_cons]
    refine (hlookup k).trans ?_
    rw [← insert, lookup_insert _ _ h]
    by_cases hk : e.1 = k
    · subst hk
      have hnone : entries.lookup e.1 = none := by
        rw [lookup_eq_none_iff]
        intro x hx
        have hne : e.1 ≠ x.1 := fun heq => hkeys.1 (heq ▸ mem_map_of_mem hx)
        simpa using hne
      simp [hnone, List.lookup]
    · have hbeq : (k == e.1) = false := by simpa using Ne.symm hk
      simp [hk, List.lookup, hbeq]

theorem fits_foldl_insert (hoffsets : ∀ e ∈ entries, e.2 < 2 ^ 64) (hne : entries ≠ [])
    (h : n.Fits) :
    (entries.foldl (fun root e => root.insert e.1 e.2) n).Holds ∧
      (entries.foldl (fun root e => root.insert e.1 e.2) n).Fits := by
  induction entries generalizing n with
  | nil => exact absurd rfl hne
  | cons e entries ih =>
    have hspec := insert_spec e.1 (hoffsets e mem_cons_self) h
    cases entries with
    | nil => exact hspec
    | cons x entries =>
      exact ih (fun y hy => hoffsets y (mem_cons_of_mem _ hy)) (by simp) hspec.2

end TrieNode

theorem TrieChildren.length_toList_lt (h : cs.WellFormed) : cs.toList.length < 256 ^ 2 := by
  have hnodup : (cs.toList.map fun e => e.1.toFin).Nodup := by
    refine pairwise_map.mpr (List.Pairwise.imp ?_ (TrieForest.pairwise_toList h))
    intro a b hab heq
    simp [UInt8.toFin_inj.mp heq] at hab
  have hle := hnodup.length_le_card
  rw [length_map, Fintype.card_fin] at hle
  exact lt_of_le_of_lt hle (by decide)

def readTrieChild (depth : Nat) : FileReader (UInt8 × TrieNode) := do
  let byte ← readU8
  let child ← deserializeN depth
  return (byte, child)

theorem reads_children {depth : Nat} (hwell : cs.WellFormed)
    (h : Reads (Reader.times (readTrieChild depth) cs.toList.length) cs.serializeAll cs.toList) :
    Reads (do
      let count ← readUInt 2
      let children ← Reader.times (readTrieChild depth) count
      return TrieForest.ofList children)
      (beBytes 2 cs.toList.length ++ cs.serializeAll) cs := by
  have hlast := h.bind_pure (f := TrieForest.ofList)
  rw [TrieForest.ofList_toList hwell] at hlast
  exact (reads_uint (length_toList_lt hwell)).bind hlast

mutual

theorem TrieNode.reads : ∀ {n : TrieNode} {depth : Nat}, n.WellFormed → n.Fits → n.Holds →
    n.serialize.length ≤ depth → Reads (deserializeN depth) n.serialize n
  | .node o cs, 0, _, _, hholds, hdepth => by
    have hnil : serialize (.node o cs) = [] := eq_nil_of_length_eq_zero (by omega)
    cases o <;> cases cs <;>
      simp_all [serialize, TrieNode.Holds, Trie.content, Trie.children, TrieForest.isEmpty]
  | .node (some offset) .nil, depth + 1, _, hfits, _, _ =>
    (reads_u8 trieNodeLeaf).bind (reads_uint (hfits.1 offset rfl)).bind_pure
  | .node (some offset) (.cons b c rest), depth + 1, hwell, hfits, _, hdepth => by
    rw [serialize, if_neg (by simp [TrieForest.isEmpty])] at hdepth ⊢
    simp only [length_append, length_singleton, Wire.length_beBytes] at hdepth
    rw [append_assoc]
    exact (reads_u8 trieNodePayload).bind ((reads_uint (hfits.1 offset rfl)).bind
      (reads_children hwell (TrieChildren.reads hwell hfits.2 (by omega))).bind_pure)
  | .node none (.cons b c rest), depth + 1, hwell, hfits, _, hdepth => by
    rw [serialize, if_neg (by simp [TrieForest.isEmpty])] at hdepth ⊢
    simp only [length_append, length_singleton, Wire.length_beBytes] at hdepth
    exact (reads_u8 trieNodeBranch).bind
      (reads_children hwell (TrieChildren.reads hwell hfits.2 (by omega))).bind_pure
  | .node none .nil, depth + 1, _, _, hholds, _ => by
    rcases hholds with h | h <;> cases h

theorem TrieChildren.reads : ∀ {cs : TrieChildren} {depth : Nat}, cs.WellFormed → cs.Fits →
    cs.serializeAll.length ≤ depth →
      Reads (Reader.times (readTrieChild depth) cs.toList.length) cs.serializeAll cs.toList
  | .nil, _, _, _, _ => Reads.pure []
  | .cons byte child rest, depth, hwell, hfits, hdepth => by
    obtain ⟨hchild, -, hrest⟩ := hwell
    obtain ⟨hholds, hchildFits, hrestFits⟩ := hfits
    rw [serializeAll] at hdepth ⊢
    simp only [length_append, length_singleton] at hdepth
    have hfirst : Reads (readTrieChild depth) ([byte] ++ serialize child) (byte, child) :=
      (reads_u8 byte).bind (TrieNode.reads hchild hchildFits hholds (by omega)).bind_pure
    exact hfirst.bind (TrieChildren.reads hrest hrestFits (by omega)).bind_pure

end

theorem loadTrieIndex_partitionsFile {root : TrieNode} (hwell : root.WellFormed)
    (hfits : root.Fits) (hholds : root.Holds) : loadTrieIndex (partitionsFile root) = .ok root := by
  have hmagic : Reads (readExact 4) btiTrieMagic btiTrieMagic := reads_exact btiTrieMagic
  have hread := reads hwell hfits hholds (Nat.le_succ _) []
  rw [append_nil] at hread
  have hdeserialize : deserialize.run root.serialize = .ok (root, []) := hread
  simp only [loadTrieIndex, partitionsFile]
  rw [append_assoc, Reader.run_bind_of_ok (hmagic _), if_neg (not_not_intro rfl),
    Reader.run_bind_of_ok (reads_u8 btiTrieVersion _), if_neg (not_not_intro rfl), hdeserialize]
  rfl

/-- What was written for a list of partitions and then opened. -/
structure BtiReader.Written (env : WriterEnv) (r : BtiReader) (partitions : Source) : Prop where
  data : r.data = dataFile env.crc32 partitions
  bloom : r.bloom = .ofKeys env.sizing (partitions.map Prod.fst)
  trie : ∀ k, r.trie.lookup k = (dataOffsets dataHeader.length partitions).lookup k

/-- The files of a list of partitions that fit, and is not empty, can be opened. -/
theorem BtiReader.openFiles_writeBti {files : BtiFiles}
    (hwrite : writeBti env partitions = .ok files) (hne : partitions ≠ [])
    (hkeys : partitions.KeysIncrease) (hcount : partitions.length < 2 ^ 32)
    (keyspace table : String) (generation : Nat) :
    ∃ r, openFiles keyspace table generation files = .ok r ∧ r.Written env partitions ∧
      r.keyspace = keyspace ∧ r.table = table ∧ r.generation = generation := by
  unfold writeBti at hwrite
  split at hwrite
  · next hsize =>
    cases hwrite
    have hoffsets : ∀ e ∈ dataOffsets dataHeader.length partitions, e.2 < 2 ^ 64 :=
      fun e he => entryOffsets_lt hsize he
    have hnodup : ((dataOffsets dataHeader.length partitions).map Prod.fst).Nodup :=
      (map_fst_dataOffsets _ partitions).symm ▸ hkeys.nodup
    have hnil : dataOffsets dataHeader.length partitions ≠ [] := by
      cases partitions with
      | nil => exact absurd rfl hne
      | cons e partitions => simp [dataOffsets, entryOffsets]
    obtain ⟨hwell, hlookup⟩ := foldl_insert (n := new) hnodup Trie.wellFormed_empty
    obtain ⟨hholds, hfits⟩ := fits_foldl_insert hoffsets hnil fits_new
    have htrie := loadTrieIndex_partitionsFile hwell hfits hholds
    have hbloom := BloomFilter.load_file_ofKeys env.sizing
      (show (partitions.map Prod.fst).length < 2 ^ 32 by rwa [length_map])
    simp only [openFiles, ofEntries, htrie, hbloom]
    refine ⟨_, rfl, ⟨rfl, rfl, fun k => ?_⟩, rfl, rfl, rfl⟩
    rw [hlookup, lookup_new, Option.or_none]
  · cases hwrite

theorem BtiReader.Written.getPartition {r : BtiReader}
    (h : r.Written env partitions) (hkeys : partitions.KeysIncrease) (hnames : partitions.NamesFit)
    (hlengths : partitions.LengthsFit) (k : Bytes) :
    r.getPartition k = .ok (partitions.lookup k) := by
  rw [BtiReader.getPartition, h.trie, mightContainKey, h.bloom, h.data]
  exact read_offsets_dataFile env _ hkeys hnames hlengths k

theorem BtiReader.Written.iterPartitions {r : BtiReader}
    (h : r.Written env partitions) (hnames : partitions.NamesFit)
    (hlengths : partitions.LengthsFit) :
    r.iterPartitions = .ok (partitions.takeWhile fun e => e.1 ≠ []) := by
  rw [BtiReader.iterPartitions, h.data, scanPartitions_dataFile _ hnames hlengths]

/-- An index that leads to every partition and to nothing else, beside a scan of all the keys. -/
structure BtiReader.Indexes (r : BtiReader) (partitions : Source) : Prop where
  lookup : ∀ k, r.trie.lookup k = (dataOffsets dataHeader.length partitions).lookup k
  getPartition : ∀ k, r.getPartition k = .ok (partitions.lookup k)
  visits : ∃ visited, r.iterPartitions = .ok visited ∧
    visited.map Prod.fst = partitions.map Prod.fst

/-- The trie of no keys is written as no bytes, and then there is no node to read. -/
theorem BtiReader.openFiles_nil {files : BtiFiles}
    (hwrite : writeBti env [] = .ok files) (keyspace table : String) (generation : Nat) :
    openFiles keyspace table generation files = .error .unexpectedEof := by
  unfold writeBti at hwrite
  split at hwrite
  · cases hwrite
    rfl
  · cases hwrite

theorem takeWhile_keys_eq_self
    (h : (partitions.takeWhile fun e => e.1 ≠ []).map Prod.fst = partitions.map Prod.fst) :
    ∀ e ∈ partitions, e.1 ≠ [] := by
  have hlength : (partitions.takeWhile fun e => e.1 ≠ []).length = partitions.length := by
    simpa using congrArg List.length h
  have hfront : (partitions.takeWhile fun e => e.1 ≠ []) <+: partitions := takeWhile_prefix _
  have hself := hfront.eq_of_length hlength
  intro e he
  simpa using takeWhile_eq_self_iff.mp hself e he

section FiniteMap

variable {files : BtiFiles}

/-- What was written for partitions with increasing keys whose lengths fit is opened as an index of
exactly these and scanned key by key, iff there is a partition and no key is empty. -/
theorem BtiReader.indexes_iff (hwrite : writeBti env partitions = .ok files)
    (hkeys : partitions.KeysIncrease) (hcount : partitions.length < 2 ^ 32)
    (hnames : partitions.NamesFit) (hlengths : partitions.LengthsFit) (keyspace table : String)
    (generation : Nat) :
    (∃ r, openFiles keyspace table generation files = .ok r ∧ r.Indexes partitions) ↔
      partitions ≠ [] ∧ ∀ e ∈ partitions, e.1 ≠ [] := by
  constructor
  · rintro ⟨r, hopen, hindexes⟩
    have hne : partitions ≠ [] := by
      rintro rfl
      rw [openFiles_nil hwrite] at hopen
      cases hopen
    obtain ⟨r', hopen', hwritten, -⟩ :=
      openFiles_writeBti hwrite hne hkeys hcount keyspace table generation
    obtain rfl := Except.ok.inj (hopen.symm.trans hopen')
    obtain ⟨visited, hiter, hvisited⟩ := hindexes.visits
    rw [hwritten.iterPartitions hnames hlengths] at hiter
    obtain rfl := Except.ok.inj hiter
    exact ⟨hne, takeWhile_keys_eq_self hvisited⟩
  · rintro ⟨hne, hnonempty⟩
    obtain ⟨r, hopen, hwritten, -⟩ :=
      openFiles_writeBti hwrite hne hkeys hcount keyspace table generation
    refine ⟨r, hopen, hwritten.trie, hwritten.getPartition hkeys hnames hlengths, partitions, ?_,
      rfl⟩
    rw [hwritten.iterPartitions hnames hlengths,
      takeWhile_eq_self_iff.mpr fun e he => by simpa using hnonempty e he]

theorem BtiReader.indexes_iff_deletedAndLive :
    ∃ files r, writeBti tenBitsPerKey BigFiles.deletedAndLive = .ok files ∧
      openFiles "ks" "t" 1 files = .ok r ∧ r.Indexes BigFiles.deletedAndLive := by
  have hwrite : ∃ files, writeBti tenBitsPerKey BigFiles.deletedAndLive = .ok files :=
    ⟨_, if_pos (by decide)⟩
  obtain ⟨files, hfiles⟩ := hwrite
  obtain ⟨r, hopen, hindexes⟩ := (indexes_iff hfiles (by decide) (by decide)
    BigFiles.namesFit_deletedAndLive BigFiles.lengthsFit_deletedAndLive "ks" "t" 1).mpr
    ⟨by decide, by decide⟩
  exact ⟨files, r, hfiles, hopen, hindexes⟩

/-- The empty key is in the trie, and the scan stops at it. -/
theorem BtiReader.not_indexes_emptyKey :
    ∃ files r, writeBti tenBitsPerKey [([], .empty), ([1], .empty)] = .ok files ∧
      openFiles "ks" "t" 1 files = .ok r ∧ r.trie.lookup [] = some 5 ∧
      r.iterPartitions = .ok [] ∧ ¬ r.Indexes [([], .empty), ([1], .empty)] := by
  refine ⟨_, _, if_pos (by decide), rfl, by decide, by decide, fun hindexes => ?_⟩
  obtain ⟨visited, hiter, hvisited⟩ := hindexes.visits
  obtain rfl : [] = visited := Except.ok.inj hiter
  exact absurd hvisited (by decide)

end FiniteMap

end CassandraVerified.Storage
