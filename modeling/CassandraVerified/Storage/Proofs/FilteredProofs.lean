import CassandraVerified.Storage.Proofs.BigProofs
import CassandraVerified.Storage.Proofs.RowsProofs

/-!
# Proofs: partitions of rich rows on disk

What is read back of a partition is computed first (`FilteredPartition.readBack`). Then it is
compared with the partition, item by item. A row with the empty clustering key goes missing among
the items, because it is taken for the static row.
-/

namespace CassandraVerified.Storage

open List
open Wire (beBytes Reader)
open Wire.Reader (Reads LoopRun)
open Std (ExtTreeMap)

variable {r : RowData} {p : FilteredPartition}

namespace FilteredPartition

/-- The items that were read so far, and one more. -/
def addItem (p : FilteredPartition) : Unfiltered → FilteredPartition
  | .row data => p.addRow data.readBack
  | .marker m => { p with items := p.items ++ [.marker m] }

/-- What has been read of a partition before its items. -/
def readStatic (partitionKey : Bytes) (p : FilteredPartition) : FilteredPartition :=
  let start : FilteredPartition :=
    { partitionKey, partitionDeletion := p.partitionDeletion, staticRow := none, items := [] }
  p.staticRow.elim start fun r => start.addRow r.readBack

/-- A partition that was written and read. -/
def readBack (partitionKey : Bytes) (p : FilteredPartition) : FilteredPartition :=
  p.items.foldl addItem (p.readStatic partitionKey)

end FilteredPartition

theorem reads_filteredItem_row (h : r.Fits) :
    Reads (readFilteredItem p) (writeRow r.toRow.clusteringKey r.toRow)
      (.inl (p.addRow r.readBack)) :=
  (reads_u8 rowMarker).bind (reads_row h.1 h.2).bind_pure

theorem reads_filteredItem {item : Unfiltered} (h : item.Fits) :
    Reads (readFilteredItem p) (writeUnfiltered item) (.inl (p.addItem item)) := by
  cases item with
  | row r => exact reads_filteredItem_row h
  | marker m =>
    have hbytes : writeUnfiltered (.marker m) =
        [rangeTombstoneBoundMarker] ++ (writeRangeTombstoneMarker m).tail := rfl
    rw [hbytes]
    exact (reads_u8 rangeTombstoneBoundMarker).bind (reads_rangeTombstoneMarker h).bind_pure

theorem writeUnfiltered_ne_nil (item : Unfiltered) : writeUnfiltered item ≠ [] := by
  cases item <;> simp [writeUnfiltered, writeRow, writeRangeTombstoneMarker]

/-- A partition is read back, up to what its rows lose. -/
theorem reads_filteredPartitionBody (h : p.Fits) (pk : Bytes) :
    Reads (readFilteredPartitionBody pk) (writeFilteredBody p) (p.readBack pk) := by
  intro rest
  refine LoopRun.run ?_ _
  -- the rows and markers and the end marker, from any state
  have hitems : ∀ q : FilteredPartition, LoopRun readFilteredItem q
      (p.items.flatMap writeUnfiltered ++ ([endOfPartition] ++ rest))
      (p.items.foldl .addItem q) rest := by
    intro q
    refine LoopRun.foldl_of_reads (fun s item hitem => reads_filteredItem (h.items item hitem))
      (fun item _ => writeUnfiltered_ne_nil item) (LoopRun.done_of_reads ?_)
    exact (reads_u8 endOfPartition).bind (Reads.pure _)
  have hstatic : ∀ q : FilteredPartition, LoopRun readFilteredItem q
      (p.staticRow.elim [] (fun r => writeRow r.toRow.clusteringKey r.toRow) ++
        (p.items.flatMap writeUnfiltered ++ ([endOfPartition] ++ rest)))
      (p.items.foldl .addItem (p.staticRow.elim q fun r => q.addRow r.readBack)) rest := by
    intro q
    cases hs : p.staticRow with
    | none => exact hitems q
    | some r =>
      exact LoopRun.next_of_reads (reads_filteredItem_row (h.staticRow r hs)) (by simp [writeRow])
        (hitems _)
  rw [writeFilteredBody, append_assoc, append_assoc, append_assoc]
  by_cases hlive : p.partitionDeletion.isLive = true
  · rw [if_pos hlive, nil_append, FilteredPartition.readBack, FilteredPartition.readStatic,
      DeletionTime.isLive_iff.mp hlive]
    exact hstatic _
  · rw [if_neg hlive]
    refine LoopRun.next_of_reads ?_ (by simp [writePartitionDeletion]) (hstatic _)
    exact (reads_u8 partitionDeletionMarker).bind (reads_deletionTime _).bind_pure

theorem readFilteredPartitionAt_eq {e : Bytes × FilteredPartition} {data after : Bytes}
    {offset : Nat} (hdrop : data.drop offset = writeFilteredEntry e ++ after)
    (hkey : e.1.length < 2 ^ 32) (hfits : e.2.Fits) :
    readFilteredPartitionAt data offset e.1 = .ok (some (e.2.readBack e.1)) := by
  unfold readFilteredPartitionAt
  simp only [hdrop]
  rw [writeFilteredEntry, append_assoc, Reader.run_bind_of_ok (reads_bytes hkey _),
    if_neg (not_not_intro rfl)]
  have hbody := (reads_filteredPartitionBody hfits e.1).bind_pure (f := some) after
  rw [hbody]
  rfl

/-- What becomes of a row or marker, unless the row is taken for the static one. -/
def Unfiltered.readBack? : Unfiltered → Option Unfiltered
  | row r => if r.clusteringKey = [] then none else some (row r.readBack)
  | marker m => some (marker m)

theorem SameItems.length_eq {t : OpenDeletions} {items items' : List Unfiltered}
    (h : SameItems t items items') : items'.length = items.length := by
  induction h with
  | nil => rfl
  | row _ _ ih => rw [length_cons, length_cons, ih]
  | marker _ ih => rw [length_cons, length_cons, ih]

attribute [local simp] Unfiltered.readBack?

/-- A row with the empty clustering key goes missing among the items. -/
theorem sameItems_filterMap_iff (t : OpenDeletions) (items : List Unfiltered) :
    SameItems t items (items.filterMap Unfiltered.readBack?) ↔ ItemsSurvive t items := by
  induction items generalizing t with
  | nil => exact ⟨fun _ => trivial, fun _ => .nil⟩
  | cons item items ih =>
    cases item with
    | marker m =>
      change SameItems t _ (.marker m :: items.filterMap Unfiltered.readBack?) ↔ _
      rw [ItemsSurvive, ← ih]
      constructor
      · rintro ⟨⟩
        assumption
      · exact .marker
    | row r =>
      rw [ItemsSurvive, ← ih]
      by_cases hck : r.clusteringKey = []
      · rw [filterMap_cons_none (by simp [hck])]
        constructor
        · intro h
          have hlen := h.length_eq
          have hle := length_filterMap_le Unfiltered.readBack? items
          rw [length_cons] at hlen
          omega
        · exact fun h => absurd hck h.1
      · rw [filterMap_cons_some (b := .row r.readBack) (by simp [hck])]
        constructor
        · rintro ⟨⟩
          next hrow hitems => exact ⟨hck, (r.sameUnder_readBack_iff _).mp hrow, hitems⟩
        · rintro ⟨-, hrow, hitems⟩
          exact .row ((r.sameUnder_readBack_iff _).mpr hrow) hitems

namespace FilteredPartition

theorem addRow_of_nil (h : r.clusteringKey = []) :
    p.addRow r = { p with staticRow := some { r with isStatic := true } } := if_pos h

theorem addRow_of_ne (h : r.clusteringKey ≠ []) :
    p.addRow r = { p with items := p.items ++ [.row r] } := if_neg h

theorem partitionDeletion_addRow (p : FilteredPartition) (r : RowData) :
    (p.addRow r).partitionDeletion = p.partitionDeletion := by
  unfold addRow
  split <;> rfl

theorem staticRow_addRow (hp : ∀ r ∈ p.staticRow, r.clusteringKey = [])
    (r : RowData) : ∀ s ∈ (p.addRow r).staticRow, s.clusteringKey = [] := by
  unfold addRow
  split
  · next h =>
    rintro s ⟨⟩
    exact h
  · exact hp

section Items

variable (items : List Unfiltered) (p : FilteredPartition)

theorem partitionDeletion_foldl_addItem :
    (items.foldl addItem p).partitionDeletion = p.partitionDeletion := by
  induction items generalizing p with
  | nil => rfl
  | cons item items ih =>
    rw [foldl_cons, ih]
    cases item with
    | row r => exact p.partitionDeletion_addRow _
    | marker m => rfl

theorem items_foldl_addItem :
    (items.foldl addItem p).items = p.items ++ items.filterMap Unfiltered.readBack? := by
  induction items generalizing p with
  | nil => simp
  | cons item items ih =>
    rw [foldl_cons, ih]
    cases item with
    | row r =>
      by_cases hck : r.clusteringKey = []
      · rw [addItem, addRow_of_nil (r.clusteringKey_readBack.trans hck),
          filterMap_cons_none (by simp [hck])]
      · rw [addItem, addRow_of_ne (fun h => hck (r.clusteringKey_readBack.symm.trans h)),
          filterMap_cons_some (b := .row r.readBack) (by simp [hck])]
        simp
    | marker m => simp [addItem]

variable {p} in
theorem staticRow_foldl_addItem (hp : ∀ r ∈ p.staticRow, r.clusteringKey = []) :
    ∀ s ∈ (items.foldl addItem p).staticRow, s.clusteringKey = [] := by
  induction items generalizing p with
  | nil => exact hp
  | cons item items ih =>
    rw [foldl_cons]
    refine ih ?_
    cases item with
    | row r => exact staticRow_addRow hp _
    | marker m => exact hp

variable {items} in
theorem staticRow_foldl_addItem_of_survive {t : OpenDeletions} (h : ItemsSurvive t items) :
    (items.foldl addItem p).staticRow = p.staticRow := by
  induction items generalizing p t with
  | nil => rfl
  | cons item items ih =>
    rw [foldl_cons]
    cases item with
    | row r =>
      obtain ⟨hck, -, hitems⟩ := h
      rw [ih _ hitems, addItem,
        addRow_of_ne fun heq => hck (r.clusteringKey_readBack.symm.trans heq)]
    | marker m => exact ih _ h

end Items

section ReadBack

variable (pk : Bytes) (p : FilteredPartition)

theorem partitionDeletion_readBack : (p.readBack pk).partitionDeletion = p.partitionDeletion := by
  rw [readBack, partitionDeletion_foldl_addItem, readStatic]
  cases p.staticRow with
  | none => rfl
  | some r => exact partitionDeletion_addRow _ _

theorem staticRow_readBack : ∀ s ∈ (p.readBack pk).staticRow, s.clusteringKey = [] := by
  refine staticRow_foldl_addItem _ ?_
  rw [readStatic]
  cases p.staticRow with
  | none => simp
  | some r => exact staticRow_addRow (by simp) _

variable {p} in
theorem readStatic_eq (h : ∀ r ∈ p.staticRow, r.clusteringKey = []) : p.readStatic pk =
    { partitionKey := pk, partitionDeletion := p.partitionDeletion
      staticRow := p.staticRow.map fun r => { r.readBack with isStatic := true }, items := [] } := by
  rw [readStatic]
  cases hs : p.staticRow with
  | none => rfl
  | some r => exact addRow_of_nil (r.clusteringKey_readBack.trans (h r hs))

/-- A partition comes back the same if and only if its rows do. -/
theorem same_readBack_iff : p.Same (p.readBack pk) ↔ p.Survives := by
  have hstatic : ∀ r : RowData, r.SameUnder p.partitionDeletion { r.readBack with isStatic := true } ↔
      r.Survives p.partitionDeletion := by
    intro r
    rw [← r.sameUnder_readBack_iff, RowData.sameUnder_iff, RowData.sameUnder_iff]
    rfl
  constructor
  · intro h
    have hnil : ∀ r ∈ p.staticRow, r.clusteringKey = [] := by
      intro r hr
      have hrel := h.staticRow
      rw [hr] at hrel
      generalize hs : (p.readBack pk).staticRow = s' at hrel
      cases hrel with
      | some hsame => rw [← hsame.clusteringKey, staticRow_readBack pk p _ hs]
    have hitems : ItemsSurvive ⟨p.partitionDeletion, []⟩ p.items := by
      have hsame := h.items
      rwa [readBack, items_foldl_addItem, readStatic_eq pk hnil, nil_append,
        sameItems_filterMap_iff] at hsame
    refine ⟨fun r hr => ⟨hnil r hr, (hstatic r).mp ?_⟩, hitems⟩
    have hrel := h.staticRow
    rw [readBack, staticRow_foldl_addItem_of_survive _ hitems, readStatic_eq pk hnil, hr] at hrel
    cases hrel with
    | some hsame => exact hsame
  · intro h
    have hnil : ∀ r ∈ p.staticRow, r.clusteringKey = [] := fun r hr => (h.staticRow r hr).1
    refine ⟨p.partitionDeletion_readBack pk, ?_, ?_⟩
    · rw [readBack, staticRow_foldl_addItem_of_survive _ h.items, readStatic_eq pk hnil]
      cases hs : p.staticRow with
      | none => exact .none
      | some r => exact .some ((hstatic r).mpr (h.staticRow r hs).2)
    · rw [readBack, items_foldl_addItem, readStatic_eq pk hnil, nil_append,
        sameItems_filterMap_iff]
      exact h.items

end ReadBack

end FilteredPartition

namespace BigFiles

variable {env : WriterEnv} {partitions : FilteredSource} {files : BigFiles}

section

variable (hkeys : partitions.Pairwise fun a b => compare a.1 b.1 = .lt) (hfits : partitions.Fits)
  (hwrite : writeFilteredPartitions env partitions = .ok files)

include hkeys hfits hwrite

/-- A read of a key that was written finds what has become of its partition. -/
theorem getFilteredPartition_eq {e : Bytes × FilteredPartition} (he : e ∈ partitions)
    (keyspace table : String) (generation : Nat) :
    ∃ r, BigReader.openFiles keyspace table generation files = .ok r ∧
      r.getFilteredPartition e.1 = .ok (some (e.2.readBack e.1)) := by
  unfold writeFilteredPartitions at hwrite
  split at hwrite
  · next hsize =>
    cases hwrite
    have hnodup : (partitions.map Prod.fst).Nodup := by
      refine pairwise_map.mpr (hkeys.imp ?_)
      intro a b hab heq
      simp [heq] at hab
    have hoffsets : ∀ o ∈ entryOffsets writeFilteredEntry dataHeader.length partitions,
        o.1.length < 2 ^ 32 ∧ o.2 < 2 ^ 64 := by
      intro o ho
      obtain ⟨x, hx, hkey⟩ := key_of_mem_entryOffsets ho
      exact ⟨hkey ▸ (hfits.2 x hx).1, entryOffsets_lt hsize ho⟩
    have hlength : (partitions.map Prod.fst).length < 2 ^ 32 := by
      rw [length_map]
      exact hfits.1
    refine ⟨_, BigReader.openFiles_eq rfl rfl hlength hoffsets _ _ _, ?_⟩
    have hmem : e.1 ∈ partitions.map Prod.fst := mem_map_of_mem he
    rw [BigReader.getFilteredPartition, BigReader.mightContainKey,
      if_pos (BloomFilter.mightContain_ofKeys _ hmem),
      BigReader.searchIndex_eq (BigReader.pairwise_entryOffsets hkeys)]
    -- the index has an offset for the key, and only the partition itself is written under it
    have hindex := hnodup
    rw [← @map_fst_entryOffsets _ writeFilteredEntry dataHeader.length] at hmem hindex
    obtain ⟨⟨k, o⟩, ho, rfl⟩ := mem_map.mp hmem
    obtain ⟨e', he', hkey, rest, hdrop⟩ := drop_entryOffsets dataHeader
      (beBytes 4 (env.crc32 (filteredDataBody partitions)).toNat) ho
    obtain rfl : e' = e := inj_on_of_nodup_map hnodup he' he hkey
    rw [(TreeMap.lookup_eq_some_iff hindex).mpr ho]
    exact readFilteredPartitionAt_eq hdrop (hfits.2 e' he').1 (hfits.2 e' he').2
  · cases hwrite

theorem keeps_iff_same {k : Bytes} (hp : (k, p) ∈ partitions) :
    files.Keeps k p ↔ p.Same (p.readBack k) := by
  constructor
  · intro h
    obtain ⟨r, p', hopen, hget, hsame⟩ := h "" "" 0
    obtain ⟨r', hopen', hget'⟩ := getFilteredPartition_eq hkeys hfits hwrite hp "" "" 0
    cases hopen.symm.trans hopen'
    cases hget.symm.trans hget'
    exact hsame
  · intro h keyspace table generation
    obtain ⟨r, hopen, hget⟩ :=
      getFilteredPartition_eq hkeys hfits hwrite hp keyspace table generation
    exact ⟨r, _, hopen, hget, h⟩

end

/-- A partition of rich rows that fits the fields of the file comes back as one that cannot be told
from it iff its static row and no other has the empty clustering key, and no row has anything that
gets lost: a deletion whose timestamp is not that of its newest cell, a primary key that is live
when no cell is, or a collection of which anything is ever live. -/
theorem keeps_iff_survives (env : WriterEnv) (partitions : FilteredSource) (files : BigFiles)
    (hkeys : partitions.Pairwise fun a b => compare a.1 b.1 = .lt) (hfits : partitions.Fits)
    (hwrite : writeFilteredPartitions env partitions = .ok files) (k : Bytes)
    (p : FilteredPartition) (hp : (k, p) ∈ partitions) : files.Keeps k p ↔ p.Survives :=
  (keeps_iff_same hkeys hfits hwrite hp).trans (p.same_readBack_iff k)

def oneValue (clusteringKey : Bytes) : RowData := (RowData.new clusteringKey).addCell
    { column := "v", value := some [7], timestamp := 1, ttl := 0,
      localDeletionTime := noDeletionTime, path := none }

/-- A static row, and a row between the bounds of a range tombstone. -/
def rowInRange : FilteredPartition where
  partitionKey := [1]
  partitionDeletion := ⟨0, 3⟩
  staticRow := some (oneValue [])
  items := [.marker (.opened ⟨.inclusiveStart, [4]⟩ ⟨5, 5⟩), .row (oneValue [5]),
    .marker (.closed ⟨.inclusiveEnd, [6]⟩ ⟨5, 5⟩)]

theorem survives_oneValue (clusteringKey : Bytes) (d : DeletionTime) :
    (oneValue clusteringKey).Survives d := by
  refine ⟨.inl rfl, fun name data hc => ?_, fun now hlive => ?_⟩
  · rw [oneValue, RowData.getElem?_addCell] at hc
    simp only [RowData.new, ExtTreeMap.getElem?_empty] at hc
    split at hc
    · cases hc
    · cases hc
  · cases hlive

theorem cells_oneValue (clusteringKey : Bytes) : (oneValue clusteringKey).toRow.cells =
    [{ column := "v", value := some [7], timestamp := 1, ttl := 0, localDeletionTime := none,
       isTombstone := false }] := by
  rfl

theorem fits_oneValue {clusteringKey : Bytes} (h : clusteringKey.length < 2 ^ 32) :
    (oneValue clusteringKey).Fits := by
  have hcells := cells_oneValue clusteringKey
  refine ⟨fun c hc => ?_, h, by rw [hcells]; decide, fun c hc => ?_⟩
  · rw [hcells] at hc
    obtain rfl := mem_singleton.mp hc
    change (nameBytes "v").length ≤ 65535
    decide
  · rw [hcells] at hc
    obtain rfl := mem_singleton.mp hc
    intro v hv
    cases hv
    decide

theorem keeps_iff_survives_rowInRange :
    ∃ files, writeFilteredPartitions tenBitsPerKey [([1], rowInRange)] = .ok files ∧
      files.Keeps [1] rowInRange := by
  obtain ⟨files, hwrite⟩ : ∃ files, writeFilteredPartitions tenBitsPerKey [([1], rowInRange)] =
      .ok files := ⟨_, if_pos (by decide +kernel)⟩
  have hfits : FilteredSource.Fits [([1], rowInRange)] := by
    refine ⟨by decide, fun e he => ?_⟩
    obtain rfl := mem_singleton.mp he
    refine ⟨by decide, fun r hr => ?_, fun item hitem => ?_⟩
    · cases hr
      exact fits_oneValue (by decide)
    · simp only [rowInRange, mem_cons, not_mem_nil, or_false] at hitem
      rcases hitem with rfl | rfl | rfl
      · change [(4 : UInt8)].length < 2 ^ 32
        decide
      · exact fits_oneValue (by decide)
      · change [(6 : UInt8)].length < 2 ^ 32
        decide
  refine ⟨files, hwrite, ?_⟩
  refine (keeps_iff_survives _ _ _ (by decide) hfits hwrite [1] rowInRange
    mem_cons_self).mpr ⟨fun r hr => ?_, ?_⟩
  · cases hr
    exact ⟨rfl, survives_oneValue _ _⟩
  · exact ⟨by decide, survives_oneValue _ _, trivial⟩

/-- A row that has nothing but its primary key. -/
def keyOnly : FilteredPartition where
  partitionKey := [1]
  partitionDeletion := .live
  staticRow := none
  items := [.row { RowData.new [5] with livenessInfo := .create 100 }]

/-- After reading, a row that has nothing but its primary key is not live any more. -/
theorem not_keeps_keyOnly :
    ∃ files, writeFilteredPartitions tenBitsPerKey [([1], keyOnly)] = .ok files ∧
      ¬files.Keeps [1] keyOnly := by
  obtain ⟨files, hwrite⟩ : ∃ files, writeFilteredPartitions tenBitsPerKey [([1], keyOnly)] =
      .ok files := ⟨_, if_pos (by decide)⟩
  have hfits : FilteredSource.Fits [([1], keyOnly)] := by
    refine ⟨by decide, fun e he => ?_⟩
    obtain rfl := mem_singleton.mp he
    refine ⟨by decide, fun r hr => (nomatch hr), fun item hitem => ?_⟩
    obtain rfl := mem_singleton.mp hitem
    exact ⟨fun c hc => (nomatch hc), by decide, by decide, fun c hc => (nomatch hc)⟩
  refine ⟨files, hwrite, fun h => ?_⟩
  have hsurvives := (keyOnly.same_readBack_iff [1]).mp
    ((keeps_iff_same (by decide) hfits hwrite mem_cons_self).mp h)
  obtain ⟨name, cell, hc, -⟩ := hsurvives.items.2.1.liveness 0 rfl rfl
  cases hc

end BigFiles

end CassandraVerified.Storage
