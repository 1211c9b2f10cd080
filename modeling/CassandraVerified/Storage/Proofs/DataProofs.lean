import CassandraVerified.Storage.Format.Data
import CassandraVerified.Storage.Proofs.LedgerProofs

/-!
# Proofs: reading the data file back

Every writer of `Storage/Format/Data` is undone by its reader, from integers up to a whole file.
-/

namespace CassandraVerified.Storage

open List
open Wire (beBytes Reader)
open Wire.Reader (Reads LoopRun)
open PartitionData

variable {e : Bytes × PartitionData} {partitions : Source} {k : Bytes} {o : Nat}

theorem reads_uint {width n : Nat} (h : n < 256 ^ width) : Reads (readUInt width) (beBytes width n) n :=
  Reads.be _ h

theorem reads_exact (bs : Bytes) : Reads (readExact bs.length) bs bs := Reads.take _ bs

theorem reads_u8 (b : UInt8) : Reads readU8 [b] b := Reads.byte _ b

theorem reads_i64 (i : Int64) : Reads readI64 (writeI64 i) i := by
  have hread : Reads (readUInt 8) (writeI64 i) i.toUInt64.toNat :=
    reads_uint (UInt64.toNat_lt i.toUInt64)
  have hback : (UInt64.ofNat i.toUInt64.toNat).toInt64 = i := by simp
  have h := hread.bind_pure (f := fun n => (UInt64.ofNat n).toInt64)
  rwa [hback] at h

theorem reads_i32 (i : Int32) : Reads readI32 (writeI32 i) i := by
  have hread : Reads (readUInt 4) (writeI32 i) i.toUInt32.toNat :=
    reads_uint (UInt32.toNat_lt i.toUInt32)
  have hback : (UInt32.ofNat i.toUInt32.toNat).toInt32 = i := by simp
  have h := hread.bind_pure (f := fun n => (UInt32.ofNat n).toInt32)
  rwa [hback] at h

theorem reads_bytes {bs : Bytes} (h : bs.length < 2 ^ 32) : Reads readBytes (writeBytes bs) bs :=
  (reads_uint (by simpa using h)).bind (reads_exact bs)

theorem reads_deletionTime (d : DeletionTime) : Reads readDeletionTime (writeDeletionTime d) d :=
  (reads_i64 _).bind (reads_i32 _).bind_pure

theorem reads_boundKind (kind : ClusteringBoundKind) :
    Reads (decodeBoundKind (encodeBoundKind kind)) [] kind := by
  cases kind <;> exact Reads.pure _

theorem reads_localDeletionTime (ldt : Option Int32) :
    Reads (readLocalDeletionTime ldt.isSome) (writeLocalDeletionTime ldt) ldt := by
  cases ldt with
  | none => exact Reads.pure none
  | some ldt => exact (reads_i32 ldt).bind_pure

theorem reads_value {value : Option Bytes} (h : ∀ v ∈ value, v.length < 2 ^ 32) :
    Reads (readValue value.isSome) (value.elim [] writeBytes) value := by
  cases value with
  | none => exact Reads.pure none
  | some v => exact (reads_bytes (h v rfl)).bind_pure

theorem fromUTF8?_nameBytes (name : String) :
    String.fromUTF8? ⟨(nameBytes name).toArray⟩ = some name := by
  have harray : (⟨(nameBytes name).toArray⟩ : ByteArray) = name.toUTF8 := by
    simp [nameBytes]
  have hvalid : name.toUTF8.IsValidUTF8 := name.isValidUTF8
  rw [harray, String.fromUTF8?, dif_pos hvalid]
  rfl

theorem reads_name (column : String) :
    Reads (readName (nameBytes column).length) (nameBytes column) column := by
  intro rest
  rw [readName, Reader.run_bind_of_ok (reads_exact (nameBytes column) rest), fromUTF8?_nameBytes]
  rfl

/-- A marker is read back behind its first byte. -/
theorem reads_rangeTombstoneMarker {marker : Rows.RangeTombstoneMarker}
    (h : marker.clusteringBound.values.length < 2 ^ 32) :
    Reads readRangeTombstoneMarker (writeRangeTombstoneMarker marker).tail marker := by
  cases marker with
  | opened bound deletion =>
    change Reads _ ([0] ++ ([encodeBoundKind bound.kind] ++ writeBytes bound.values ++
      writeDeletionTime deletion)) _
    rw [append_assoc]
    exact (reads_u8 0).bind ((reads_u8 _).bind ((reads_boundKind _).bind
      ((reads_bytes h).bind (reads_deletionTime deletion).bind_pure)))
  | closed bound deletion =>
    change Reads _ ([1] ++ ([encodeBoundKind bound.kind] ++ writeBytes bound.values ++
      writeDeletionTime deletion)) _
    rw [append_assoc]
    exact (reads_u8 1).bind ((reads_u8 _).bind ((reads_boundKind _).bind
      ((reads_bytes h).bind (reads_deletionTime deletion).bind_pure)))
  | boundary bound closeDeletion openDeletion =>
    change Reads _ ([2] ++ ([encodeBoundKind bound.kind] ++ writeBytes bound.values ++
      writeDeletionTime closeDeletion ++ writeDeletionTime openDeletion)) _
    rw [append_assoc, append_assoc]
    exact (reads_u8 2).bind ((reads_u8 _).bind ((reads_boundKind _).bind ((reads_bytes h).bind
      ((reads_deletionTime closeDeletion).bind (reads_deletionTime openDeletion).bind_pure))))

theorem cellFlags_bits (c : Cell) :
    decide (cellFlags c &&& 4 ≠ 0) = c.localDeletionTime.isSome ∧
      decide (cellFlags c &&& 2 ≠ 0) = c.value.isSome ∧
      decide (cellFlags c &&& 1 ≠ 0) = c.isTombstone := by
  unfold cellFlags
  cases c.isTombstone <;> cases c.value.isSome <;> cases c.localDeletionTime.isSome <;> decide

theorem rowFlags_bits (r : Row) : decide (rowFlags r &&& 2 ≠ 0) = r.localDeletionTime.isSome ∧
      decide (rowFlags r &&& 1 ≠ 0) = r.isTombstone := by
  unfold rowFlags
  cases r.isTombstone <;> cases r.localDeletionTime.isSome <;> decide

theorem reads_cell {c : Cell} (hname : c.NameFits) (hvalue : c.ValueFits) :
    Reads readCell (writeCell c) c := by
  have hlength : (nameBytes c.column).length < 256 ^ 2 := Nat.lt_succ_of_le hname
  simp only [writeCell, append_assoc]
  refine (reads_uint hlength).bind ((reads_name _).bind ((reads_i64 _).bind ((reads_i32 _).bind
    ((reads_u8 _).bind ?_))))
  rw [(cellFlags_bits c).1, (cellFlags_bits c).2.1, (cellFlags_bits c).2.2]
  exact (reads_localDeletionTime _).bind (reads_value hvalue).bind_pure

theorem reads_row {r : Row} (hnames : r.NamesFit) (hlengths : r.LengthsFit) :
    Reads readRow (writeRow r.clusteringKey r).tail r := by
  have hcells : Reads (Reader.times readCell r.cells.length) (r.cells.flatMap writeCell) r.cells :=
    Reads.times fun c hc => reads_cell (hnames c hc) (hlengths.values c hc)
  change Reads readRow (writeBytes r.clusteringKey ++ [rowFlags r] ++
    writeLocalDeletionTime r.localDeletionTime ++ beBytes 4 r.cells.length ++
    r.cells.flatMap writeCell) r
  simp only [append_assoc]
  refine (reads_bytes hlengths.clusteringKey).bind ((reads_u8 _).bind ?_)
  rw [(rowFlags_bits r).1, (rowFlags_bits r).2]
  exact (reads_localDeletionTime _).bind ((reads_uint (by simpa using hlengths.cells)).bind
    hcells.bind_pure)

theorem flatMap_writeRow (p : PartitionData) : p.rows.toList.flatMap (fun e => writeRow e.1 e.2) =
      p.rowList.flatMap fun r => writeRow r.clusteringKey r := by
  rw [PartitionData.rowList, TreeMap.values, flatMap_map]
  refine flatMap_congr fun e he => ?_
  rw [p.keyed e.1 e.2 (Std.ExtTreeMap.mem_toList_iff_getElem?_eq_some.mp he)]

/-- A partition is read back. -/
theorem reads_partitionBody {p : PartitionData} (hnames : p.NamesFit) (hlengths : p.LengthsFit)
    (unexpected : String) :
    Reads (readPartitionBody unexpected) (writePartitionBody p) p := by
  intro rest
  refine LoopRun.run ?_ _
  have hrow : ∀ r ∈ p.rowList, r.NamesFit ∧ r.LengthsFit := by
    intro r hr
    obtain ⟨ck, hck⟩ := TreeMap.mem_values.mp hr
    exact ⟨hnames ck r hck, hlengths ck r hck⟩
  -- the rows and the end marker, once the tombstone is there
  have hrows : ∀ q : PartitionData, (∀ ck : Bytes, q.rows[ck]? = none) →
      q.tombstone = p.tombstone → LoopRun (readItem unexpected) q
        (p.rows.toList.flatMap (fun e => writeRow e.1 e.2) ++ ([endOfPartition] ++ rest)) p rest := by
    intro q hq htomb
    rw [flatMap_writeRow]
    refine LoopRun.foldl_of_reads (fun s r hr =>
        (reads_u8 rowMarker).bind (reads_row (hrow r hr).1 (hrow r hr).2).bind_pure)
      (fun r _ => by simp [writeRow]) ?_
    rw [foldl_applyRow_rowList hq htomb]
    exact LoopRun.done_of_reads ((reads_u8 endOfPartition).bind (Reads.pure _))
  rw [writePartitionBody, append_assoc, append_assoc]
  cases htomb : p.tombstone with
  | none => exact hrows .empty rows_empty htomb.symm
  | some t =>
    refine LoopRun.next_of_reads
      ((reads_u8 partitionDeletionMarker).bind (reads_deletionTime ⟨t.1, t.2⟩).bind_pure)
      (by simp [writePartitionDeletion]) (hrows _ (fun ck => ?_) ?_)
    · rw [rows_setTombstone, rows_empty]
    · rw [htomb, tombstone_setTombstone]
      rfl

theorem length_writeEntry (e : Bytes × PartitionData) : 5 ≤ (writeEntry e).length := by
  simp only [writeEntry, writeBytes, writePartitionBody, length_append, Wire.length_beBytes,
    length_singleton]
  omega

theorem readPartitionAt_entry {data after : Bytes} {offset : Nat}
    (hdrop : data.drop offset = writeEntry e ++ after) (hkey : e.1.length < 2 ^ 32)
    (hnames : e.2.NamesFit) (hlengths : e.2.LengthsFit) (unexpected : String)
    (partitionKey : Bytes) :
    readPartitionAt unexpected data offset partitionKey =
      .ok (if e.1 = partitionKey then some e.2 else none) := by
  unfold readPartitionAt
  simp only [hdrop]
  rw [writeEntry, append_assoc, Reader.run_bind_of_ok (reads_bytes hkey _)]
  by_cases hpk : e.1 = partitionKey
  · rw [if_neg (not_not_intro hpk), if_pos hpk]
    have hbody := (reads_partitionBody hnames hlengths unexpected).bind_pure (f := some) after
    rw [hbody]
    rfl
  · rw [if_pos hpk, if_neg hpk]
    rfl

/-- A scan ends at the empty key. -/
theorem run_scanEntry (hkey : e.1.length < 2 ^ 32) (hnames : e.2.NamesFit)
    (hlengths : e.2.LengthsFit) (result : Source) (rest : Bytes) :
    (scanEntry result).run (writeEntry e ++ rest) =
      if e.1 = [] then .ok (.inr result, writePartitionBody e.2 ++ rest)
      else .ok (.inl (result ++ [e]), rest) := by
  have hlong : ¬ (writeEntry e ++ rest).length ≤ 4 := by
    have hlen := length_writeEntry e
    rw [length_append]
    omega
  have hget : (get : FileReader Bytes).run (writeEntry e ++ rest) =
    .ok (writeEntry e ++ rest, writeEntry e ++ rest) := rfl
  unfold scanEntry
  rw [Reader.run_bind_of_ok hget, if_neg hlong, writeEntry, writeBytes, append_assoc,
    append_assoc, Reader.run_bind_of_ok (reads_uint (by simpa using hkey) _)]
  split_ifs with hzero hempty hempty
  · rw [hempty]
    rfl
  · exact absurd (length_eq_zero_iff.mp hzero) hempty
  · exact absurd (length_eq_zero_iff.mpr hempty) hzero
  · rw [Reader.run_bind_of_ok (reads_exact e.1 _),
      Reader.run_bind_of_ok (reads_partitionBody hnames hlengths _ rest)]
    rfl

theorem run_scanEntry_done {rest : Bytes} (hshort : rest.length ≤ 4) (result : Source) :
    (scanEntry result).run rest = .ok (.inr result, rest) := by
  have hget : (get : FileReader Bytes).run rest = .ok (rest, rest) := rfl
  unfold scanEntry
  rw [Reader.run_bind_of_ok hget, if_pos hshort]
  rfl

theorem loopRun_scanEntry (hnames : partitions.NamesFit) (hlengths : partitions.LengthsFit)
    {crc : Bytes} (hcrc : crc.length = 4) (result : Source) :
    ∃ rest, LoopRun scanEntry result (partitions.flatMap writeEntry ++ crc)
      (result ++ partitions.takeWhile fun e => e.1 ≠ []) rest := by
  induction partitions generalizing result with
  | nil =>
    refine ⟨crc, .done ?_⟩
    simpa using run_scanEntry_done hcrc.le result
  | cons e partitions ih =>
    obtain ⟨hkey, hlen⟩ := hlengths e mem_cons_self
    rw [flatMap_cons, append_assoc]
    have hrun := run_scanEntry hkey (hnames e mem_cons_self) hlen result
      (partitions.flatMap writeEntry ++ crc)
    by_cases hne : e.1 = []
    · refine ⟨writePartitionBody e.2 ++ (partitions.flatMap writeEntry ++ crc), .done ?_⟩
      rw [hrun, if_pos hne, takeWhile_cons_of_neg (by simpa using hne), append_nil]
    · obtain ⟨rest, hrest⟩ := ih (fun x hx => hnames x (mem_cons_of_mem _ hx))
        (fun x hx => hlengths x (mem_cons_of_mem _ hx)) (result ++ [e])
      rw [if_neg hne] at hrun
      refine ⟨rest, .next hrun ?_ ?_⟩
      · have h5 := length_writeEntry e
        simp only [length_append]
        omega
      · rw [takeWhile_cons_of_pos (by simpa using hne)]
        rwa [append_assoc, singleton_append] at hrest

theorem scanPartitions_dataFile (crc32 : Bytes → UInt32) (hnames : partitions.NamesFit)
    (hlengths : partitions.LengthsFit) :
    scanPartitions (dataFile crc32 partitions) = .ok (partitions.takeWhile fun e => e.1 ≠ []) := by
  obtain ⟨rest, hrun⟩ := loopRun_scanEntry hnames hlengths
    (Wire.length_beBytes 4 (crc32 (dataBody partitions)).toNat) []
  rw [scanPartitions, dataFile]
  conv_lhs => rw [dataBody]
  rw [append_assoc, drop_left]
  change ((Reader.loop _ scanEntry []).run (partitions.flatMap writeEntry ++
    beBytes 4 (crc32 (dataBody partitions)).toNat)).map Prod.fst = _
  rw [hrun.run]
  rfl

section Offsets

variable {α : Type} {write : Bytes × α → Bytes}

theorem map_fst_entryOffsets (offset : Nat) (entries : List (Bytes × α)) :
    (entryOffsets write offset entries).map Prod.fst = entries.map Prod.fst := by
  induction entries generalizing offset with
  | nil => rfl
  | cons e entries ih => rw [entryOffsets, map_cons, map_cons, ih]

variable {entries : List (Bytes × α)}

theorem mem_entryOffsets {offset : Nat}
    (h : (k, o) ∈ entryOffsets write offset entries) :
    ∃ before e after, entries = before ++ e :: after ∧ e.1 = k ∧
      o = offset + (before.flatMap write).length := by
  induction entries generalizing offset with
  | nil => cases h
  | cons e entries ih =>
    rcases mem_cons.mp h with heq | hrest
    · obtain ⟨rfl, rfl⟩ := Prod.mk.inj heq
      exact ⟨[], e, entries, rfl, rfl, rfl⟩
    · obtain ⟨before, e', after, rfl, hk, ho⟩ := ih hrest
      refine ⟨e :: before, e', after, rfl, hk, ?_⟩
      rw [ho, flatMap_cons, length_append]
      omega

theorem drop_entryOffsets (header tail : Bytes)
    (h : (k, o) ∈ entryOffsets write header.length entries) :
    ∃ e ∈ entries, e.1 = k ∧
      ∃ rest, ((header ++ entries.flatMap write) ++ tail).drop o = write e ++ rest := by
  obtain ⟨before, e, after, rfl, hk, rfl⟩ := mem_entryOffsets h
  refine ⟨e, by simp, hk, after.flatMap write ++ tail, ?_⟩
  have hfile : (header ++ (before ++ e :: after).flatMap write) ++ tail =
      (header ++ before.flatMap write) ++ (write e ++ (after.flatMap write ++ tail)) := by
    simp
  rw [hfile, ← length_append, drop_left]

theorem entryOffsets_lt {header tail : Bytes}
    (hsize : ((header ++ entries.flatMap write) ++ tail).length < 2 ^ 64)
    (h : (k, o) ∈ entryOffsets write header.length entries) : o < 2 ^ 64 := by
  obtain ⟨before, e, after, rfl, -, rfl⟩ := mem_entryOffsets h
  simp only [flatMap_append, length_append] at hsize
  omega

end Offsets

theorem map_fst_dataOffsets (offset : Nat) (partitions : Source) :
    (dataOffsets offset partitions).map Prod.fst = partitions.map Prod.fst :=
  map_fst_entryOffsets offset partitions

theorem readPartitionAt_dataFile (crc32 : Bytes → UInt32) (unexpected : String)
    (hkeys : (partitions.map Prod.fst).Nodup) (hnames : partitions.NamesFit)
    (hlengths : partitions.LengthsFit) (h : (k, o) ∈ dataOffsets dataHeader.length partitions) :
    readPartitionAt unexpected (dataFile crc32 partitions) o k = .ok (partitions.lookup k) := by
  obtain ⟨e, he, rfl, rest, hdrop⟩ := drop_entryOffsets dataHeader
    (beBytes 4 (crc32 (dataBody partitions)).toNat) h
  have hfile : (dataFile crc32 partitions).drop o = writeEntry e ++ rest := hdrop
  rw [readPartitionAt_entry hfile (hlengths e he).1 (hnames e he) (hlengths e he).2, if_pos rfl,
    (TreeMap.lookup_eq_some_iff hkeys).mpr he]

end CassandraVerified.Storage
