import CassandraVerified.Lib.Crc32
import CassandraVerified.Storage.CommitLog.Segment

/-!
# Proofs: reading a segment back

`readLoop_record` says what the reader does at a record, for any length; `readLoop_torn` what it
does at one that is cut. `readsWholeEntries_iff` follows by induction over the records.
-/

namespace CassandraVerified.Storage

open List
open Wire (beBytes readBe readByte)
open Segment

variable {ext : External} {codec : SegmentCodec} {version : UInt8} {id pos n : Nat}
  {entry : UInt8 × Bytes} {payload : Bytes} {flags : SegmentFlags} {payloads : List Bytes}

@[simp] theorem length_record (entry : UInt8 × Bytes) :
    (record ext entry).length = 9 + entry.2.length := by
  simp [record]
  omega

@[simp] theorem length_segmentHeader (id : Nat) (flags : SegmentFlags) :
    (segmentHeader id flags).length = headerSize := by
  simp [segmentHeader, segmentMagic, headerSize]

section

variable (hv : version ≥ 2)

include hv

theorem readEntryHeader_record (flags : UInt8) (crc : UInt32) (rest : Bytes) :
    readEntryHeader version (flags :: (beBytes 4 crc.toNat ++ rest)) =
      some ((flags, crc.toNat), rest) := by
  have hcrc : crc.toNat < 256 ^ 4 := by simpa using crc.toNat_lt
  simp [readEntryHeader, hv, readByte, Wire.readBe_beBytes_of_lt hcrc]

/-- The reader at a record. It takes the length modulo `2 ^ 32` for the length of the payload. -/
theorem readLoop_record (policy : CorruptionPolicy) (maxOffset pos : Nat) (entry : UInt8 × Bytes)
    (rest : Bytes) :
    readLoop ext codec id version policy maxOffset pos (record ext entry ++ rest) =
      let len := entry.2.length % 2 ^ 32
      if pos + 9 + len > maxOffset then []
      else
        match decodeEntry ext codec id (pos + 9 + len) entry.1 (ext.crc32 entry.2).toNat
            (entry.2.take len) with
        | .ok payload =>
          .ok payload :: readLoop ext codec id version policy maxOffset (pos + 9 + len)
            (entry.2.drop len ++ rest)
        | .error e =>
          .error e ::
            match policy with
            | .stopOnCorrupt => []
            | .skipAndContinue =>
              readLoop ext codec id version policy maxOffset (pos + 9 + len)
                (entry.2.drop len ++ rest) := by
  have hlen : readBe 4 (record ext entry ++ rest) =
      some (entry.2.length % 2 ^ 32, entry.1 :: (beBytes 4 (ext.crc32 entry.2).toNat ++
        (entry.2 ++ rest))) := by
    rw [record]
    simp only [append_assoc, singleton_append]
    exact Wire.readBe_beBytes 4 _ _
  have htake : Wire.take (entry.2.length % 2 ^ 32) (entry.2 ++ rest) =
      some (entry.2.take (entry.2.length % 2 ^ 32),
        entry.2.drop (entry.2.length % 2 ^ 32) ++ rest) := by
    have hle : entry.2.length % 2 ^ 32 ≤ entry.2.length := Nat.mod_le _ _
    rw [Wire.take_eq_some]
    exact ⟨by rw [← append_assoc, take_append_drop], length_take_of_le hle⟩
  rw [readLoop]
  split
  · next h => exact absurd (hlen.symm.trans h) (by simp)
  · next len rest₁ h =>
    rw [hlen, Option.some.injEq, Prod.mk.injEq] at h
    obtain ⟨rfl, rfl⟩ := h
    simp only [if_pos hv]
    refine if_congr Iff.rfl rfl ?_
    split
    · next h => simp [readEntryHeader_record hv] at h
    · next fl crc rest₂ h =>
      rw [readEntryHeader_record hv, Option.some.injEq, Prod.mk.injEq, Prod.mk.injEq] at h
      obtain ⟨⟨rfl, rfl⟩, rfl⟩ := h
      split
      · next h => exact absurd (htake.symm.trans h) (by simp)
      · next raw rest₃ h =>
        rw [htake, Option.some.injEq, Prod.mk.injEq] at h
        obtain ⟨rfl, rfl⟩ := h
        rfl

theorem readLoop_record_of_lt (policy : CorruptionPolicy) {maxOffset : Nat}
    (hfits : entry.2.length < 2 ^ 32)
    (hdec : ∀ stop, decodeEntry ext codec id stop entry.1 (ext.crc32 entry.2).toNat entry.2 =
      .ok payload) (hstop : pos + (record ext entry).length ≤ maxOffset) (rest : Bytes) :
    readLoop ext codec id version policy maxOffset pos (record ext entry ++ rest) =
      .ok payload :: readLoop ext codec id version policy maxOffset (pos + (record ext entry).length)
        rest := by
  rw [readLoop_record hv]
  rw [length_record, ← Nat.add_assoc] at hstop ⊢
  simp only [Nat.mod_eq_of_lt hfits, take_length, drop_length, nil_append, hdec]
  rw [if_neg (not_lt.mpr hstop)]

/-- The reader at a record that does not end before `maxOffset`, however much of it is there. -/
theorem readLoop_torn (policy : CorruptionPolicy) {maxOffset : Nat}
    (hfits : entry.2.length < 2 ^ 32) (hstop : maxOffset < pos + (record ext entry).length)
    (rest : Bytes) (k : Nat) :
    readLoop ext codec id version policy maxOffset pos ((record ext entry ++ rest).take k) = [] := by
  rw [readLoop]
  split
  · rfl
  · next len rest₁ h =>
    -- At least the length field is there, and it is the true length.
    have hk : 4 ≤ k := by
      by_contra hk
      have hshort : readBe 4 ((record ext entry ++ rest).take k) = none := by
        rw [Wire.readBe_eq_none]
        exact lt_of_le_of_lt (length_take_le k _) (not_le.mp hk)
      exact absurd (hshort.symm.trans h) (by simp)
    have hlen : len = entry.2.length := by
      have hsplit : (record ext entry ++ rest).take k = beBytes 4 entry.2.length ++
            (([entry.1] ++ beBytes 4 (ext.crc32 entry.2).toNat ++ entry.2) ++ rest).take (k - 4) := by
        simp only [record, append_assoc]
        rw [take_append, take_of_length_le (by simpa using hk), Wire.length_beBytes]
      rw [hsplit, Wire.readBe_beBytes, Nat.mod_eq_of_lt (by simpa using hfits), Option.some.injEq,
        Prod.mk.injEq] at h
      exact h.1.symm
    rw [length_record] at hstop
    simp only [if_pos hv, hlen]
    rw [if_pos (by omega)]

end

theorem compressEntry_cases (ext : External) (flags : SegmentFlags) (payload : Bytes) :
    compressEntry ext flags payload = (1, ext.compressPrependSize payload) ∨
      compressEntry ext flags payload = (0, payload) := by
  unfold compressEntry
  split
  · exact Or.inl rfl
  · exact Or.inr rfl

theorem compressEntry_bits (ext : External) (flags : SegmentFlags) (payload : Bytes) :
    ((compressEntry ext flags payload).1 ||| 2) &&& 2 ≠ 0 ∧
      ((compressEntry ext flags payload).1 ||| 2) &&& 1 = (compressEntry ext flags payload).1 &&& 1 ∧
      (compressEntry ext flags payload).1 &&& 2 = 0 := by
  rcases compressEntry_cases ext flags payload with hc | hc
  · simp only [hc]
    decide
  · simp only [hc]
    decide

theorem decodeEntry_encodeEntry (hcodec : codec.Lawful)
    (h : encodeEntry ext codec flags payload = .ok entry) (id stop : Nat) :
    decodeEntry ext codec id stop entry.1 (ext.crc32 entry.2).toNat entry.2 =
      decompressEntry ext (compressEntry ext flags payload).1
        (compressEntry ext flags payload).2 := by
  obtain ⟨hencrypted, hsame, hplain⟩ := compressEntry_bits ext flags payload
  unfold encodeEntry at h
  split at h
  · split at h
    · next encoded henc =>
      obtain rfl := Except.ok.inj h
      simp [decodeEntry, decryptEntry, decompressEntry, hencrypted, hsame, hcodec _ _ henc,
        Except.mapError]
    · exact absurd h (by simp)
  · obtain rfl := Except.ok.inj h
    simp [decodeEntry, decryptEntry, hplain]

theorem decompressEntry_of_fits (hext : ext.Lawful)
    (h : (compressEntry ext flags payload).1 = 1 → payload.length < 2 ^ 32) :
    decompressEntry ext (compressEntry ext flags payload).1 (compressEntry ext flags payload).2 =
      .ok payload := by
  rcases compressEntry_cases ext flags payload with hc | hc
  · rw [hc] at h ⊢
    simp [decompressEntry, hext.decompress_compress payload (h rfl), Except.mapError]
  · simp [hc, decompressEntry]

theorem decompressEntry_of_le (hext : ext.Lawful) (h : (compressEntry ext flags payload).1 = 1)
    (hlen : 2 ^ 32 ≤ payload.length) :
    decompressEntry ext (compressEntry ext flags payload).1 (compressEntry ext flags payload).2 ≠
      .ok payload := by
  intro heq
  unfold decompressEntry at heq
  rw [h, if_pos (by decide)] at heq
  generalize hout : ext.decompressSizePrepended (compressEntry ext flags payload).2 = out at heq
  cases out with
  | error e => exact absurd heq (by simp [Except.mapError])
  | ok bytes =>
    obtain rfl : bytes = payload := by simpa [Except.mapError] using heq
    exact absurd (hext.length_decompress _ _ hout) (not_lt.mpr hlen)

section

variable (ext codec)

/-- The records of a list of payloads, one behind the other. -/
def recordsOf (flags : SegmentFlags) : List Bytes → Bytes
  | [] => []
  | p :: ps =>
    match encodeEntry ext codec flags p with
    | .error _ => recordsOf flags ps
    | .ok entry => record ext entry ++ recordsOf flags ps

end

/-- A file that starts with a fresh header opens for reading. -/
theorem openForRead_segmentHeader (path : String) (id : Nat) (flags : SegmentFlags) (rest : Bytes) :
    openForRead path (segmentHeader id flags ++ rest) =
      .ok ⟨id % 256 ^ 8, segmentHeader id flags ++ rest, (segmentHeader id flags ++ rest).length,
        SegmentFlags.fromByte flags.toByte, 2, false⟩ := by
  have hsplit : segmentHeader id flags ++ rest =
      segmentMagic ++ ((2 : UInt8) :: (beBytes 8 id ++ (flags.toByte :: ([0, 0] ++ rest)))) := by
    simp [segmentHeader]
  generalize segmentHeader id flags ++ rest = file at hsplit ⊢
  have hmagic : Wire.take 4 file = some (segmentMagic,
      (2 : UInt8) :: (beBytes 8 id ++ (flags.toByte :: ([0, 0] ++ rest)))) := by
    rw [hsplit]
    exact Wire.take_append (show segmentMagic.length = 4 from rfl) _
  have hreserved : Wire.take 2 ([0, 0] ++ rest) = some ([0, 0], rest) :=
    Wire.take_append (show [0, 0].length = 2 from rfl) _
  unfold openForRead
  simp only [hmagic, readByte, Wire.readBe_beBytes, hreserved]
  rfl

/-- What appending does: each payload is encoded, and the records go to the end of the file. -/
theorem appendAll_eq_ok {seg seg' : Segment} (h : seg.appendAll ext codec payloads = .ok seg') :
    (∀ p ∈ payloads, ∃ entry, encodeEntry ext codec seg.flags p = .ok entry) ∧
      seg'.file = seg.file ++ recordsOf ext codec seg.flags payloads ∧
      seg'.flags = seg.flags ∧ seg'.version = seg.version ∧ seg'.id = seg.id ∧
      seg'.size + seg.file.length = seg.size + seg'.file.length := by
  induction payloads generalizing seg with
  | nil =>
    obtain rfl := Except.ok.inj h
    simp [recordsOf]
  | cons p ps ih =>
    unfold appendAll at h
    unfold appendEntryWithCodec at h
    split at h
    · next seg₁ off happ =>
      split at happ
      · split at happ
        · next entry henc =>
          obtain ⟨rfl, -⟩ : _ = seg₁ ∧ _ = off := by simpa using happ
          obtain ⟨hall, hfile, hflags, hversion, hid, hsize⟩ := ih h
          refine ⟨?_, ?_, hflags, hversion, hid, ?_⟩
          · intro q hq
            rcases mem_cons.mp hq with rfl | hq
            · exact ⟨entry, henc⟩
            · exact hall q hq
          · rw [hfile]
            simp [recordsOf, henc]
          · simp only [length_append, length_record] at hsize
            omega
        · exact absurd happ (by simp)
      · exact absurd happ (by simp)
    · exact absurd h (by simp)

theorem entriesWithin_of_lt (h : n < pos) (payloads : List Bytes) :
    entriesWithin ext codec flags n pos payloads = [] := by
  induction payloads generalizing pos with
  | nil => rfl
  | cons p ps ih =>
    unfold entriesWithin
    split
    · exact ih h
    · next entry _ =>
      have hlt : n < pos + (record ext entry).length := by omega
      simp only [if_neg (not_le.mpr hlt), ih hlt]

theorem entriesWithin_of_le
    (hall : ∀ p ∈ payloads, ∃ entry, encodeEntry ext codec flags p = .ok entry)
    (h : pos + (recordsOf ext codec flags payloads).length ≤ n) :
    entriesWithin ext codec flags n pos payloads = payloads := by
  induction payloads generalizing pos with
  | nil => rfl
  | cons p ps ih =>
    obtain ⟨entry, henc⟩ := hall p (by simp)
    simp only [recordsOf, henc, length_append] at h
    have htail : entriesWithin ext codec flags n (pos + (record ext entry).length) ps = ps :=
      ih (fun q hq => hall q (by simp [hq])) (by omega)
    simp only [entriesWithin, henc, htail]
    rw [if_pos (by omega)]

/-- Reading records that fit, cut off after `k` bytes or not, finds those that end in time. -/
theorem readLoop_recordsOf (hext : ext.Lawful) (hcodec : codec.Lawful) (hv : version ≥ 2)
    (policy : CorruptionPolicy)
    (hall : ∀ p ∈ payloads, ∃ entry, encodeEntry ext codec flags p = .ok entry)
    (hfits : ∀ p ∈ payloads, EntryFits ext codec flags p) {k : Nat} (hk : n ≤ pos + k) :
    readLoop ext codec id version policy n pos ((recordsOf ext codec flags payloads).take k) =
      (entriesWithin ext codec flags n pos payloads).map .ok := by
  induction payloads generalizing pos k with
  | nil =>
    rw [readLoop]
    split
    · rfl
    · next h => simp [recordsOf, readBe, Wire.take] at h
  | cons p ps ih =>
    obtain ⟨entry, henc⟩ := hall p (by simp)
    obtain ⟨hlen, hraw⟩ := hfits p (by simp) entry henc
    have hdec : ∀ stop, decodeEntry ext codec id stop entry.1 (ext.crc32 entry.2).toNat
        entry.2 = .ok p := fun stop => by
      rw [decodeEntry_encodeEntry hcodec henc, decompressEntry_of_fits hext hraw]
    simp only [recordsOf, entriesWithin, henc]
    by_cases hstop : pos + (record ext entry).length ≤ n
    · -- The record ends in time, so all of it is there.
      have hle : (record ext entry).length ≤ k := by omega
      rw [if_pos hstop, take_append, take_of_length_le hle,
        readLoop_record_of_lt hv policy hlen hdec hstop, map_cons]
      exact congrArg _ (ih (fun q hq => hall q (by simp [hq]))
        (fun q hq => hfits q (by simp [hq])) (by omega))
    · rw [if_neg hstop, readLoop_torn hv policy hlen (not_le.mp hstop),
        entriesWithin_of_lt (not_le.mp hstop), map_nil]

/-- A reader that finds all entries of a segment has found only entries that fit. -/
theorem entryFits_of_readLoop (hext : ext.Lawful) (hcodec : codec.Lawful) (hv : version ≥ 2)
    (hall : ∀ p ∈ payloads, ∃ entry, encodeEntry ext codec flags p = .ok entry)
    (hcrc : ∀ p ∈ payloads, ∀ entry, encodeEntry ext codec flags p = .ok entry →
      2 ^ 32 ≤ entry.2.length →
      ext.crc32 (entry.2.take (entry.2.length % 2 ^ 32)) ≠ ext.crc32 entry.2)
    (hn : pos + (recordsOf ext codec flags payloads).length ≤ n)
    (h : readLoop ext codec id version .stopOnCorrupt n pos (recordsOf ext codec flags payloads) =
      payloads.map .ok) :
    ∀ p ∈ payloads, EntryFits ext codec flags p := by
  induction payloads generalizing pos with
  | nil => exact fun p hp => absurd hp (by simp)
  | cons p ps ih =>
    obtain ⟨entry, henc⟩ := hall p (by simp)
    simp only [recordsOf, henc, length_append, length_record] at hn
    simp only [recordsOf, henc, map_cons] at h
    rw [readLoop_record hv] at h
    simp only at h
    have hmod : entry.2.length % 2 ^ 32 ≤ entry.2.length := Nat.mod_le _ _
    rw [if_neg (by omega)] at h
    have hlen : entry.2.length < 2 ^ 32 := by
      -- Otherwise the checksum of the shortened payload does not match.
      by_contra hlong
      have hbad := hcrc p (by simp) entry henc (not_lt.mp hlong)
      have hne : (ext.crc32 entry.2).toNat ≠
          (ext.crc32 (entry.2.take (entry.2.length % 2 ^ 32))).toNat :=
        fun heq => hbad (UInt32.toNat_inj.mp heq.symm)
      rw [decodeEntry, if_pos hne] at h
      exact absurd h (by simp)
    have hraw : (compressEntry ext flags p).1 = 1 → p.length < 2 ^ 32 := by
      intro hcompressed
      by_contra hlong
      have hbad := decompressEntry_of_le hext hcompressed (not_lt.mp hlong)
      rw [Nat.mod_eq_of_lt hlen, take_length, decodeEntry_encodeEntry hcodec henc] at h
      split at h
      · next payload hok =>
        obtain ⟨rfl, -⟩ : payload = p ∧ _ := by simpa using h
        exact hbad hok
      · exact absurd h (by simp)
    have hfits : EntryFits ext codec flags p := by
      intro entry' henc'
      obtain rfl : entry = entry' := Except.ok.inj (henc.symm.trans henc')
      exact ⟨hlen, hraw⟩
    rw [Nat.mod_eq_of_lt hlen, take_length, drop_length, nil_append,
      decodeEntry_encodeEntry hcodec henc, decompressEntry_of_fits hext hraw] at h
    have htail := ih (fun q hq => hall q (by simp [hq]))
      (fun q hq => hcrc q (by simp [hq])) (by omega) (List.cons.inj h).2
    intro q hq
    rcases mem_cons.mp hq with rfl | hq
    · exact hfits
    · exact htail q hq

/-- **Torn tails.** Reading the first bytes of a segment, wherever they end, finds exactly the
entries whose records are complete iff every length fits its 32-bit field. -/
theorem readsWholeEntries_iff (ext : External) (codec : SegmentCodec) (hext : ext.Lawful)
    (hcodec : codec.Lawful) (id : Nat) (flags : SegmentFlags) (payloads : List Bytes)
    (seg : Segment)
    (happend : (createWithFlags id flags).appendAll ext codec payloads = .ok seg)
    (hcrc : ∀ p ∈ payloads, ∀ entry, encodeEntry ext codec flags p = .ok entry →
      2 ^ 32 ≤ entry.2.length →
      ext.crc32 (entry.2.take (entry.2.length % 2 ^ 32)) ≠ ext.crc32 entry.2) :
    seg.ReadsWholeEntries ext codec payloads ↔ ∀ p ∈ payloads, EntryFits ext codec flags p := by
  obtain ⟨hall, hfile, hflags, hversion, -, -⟩ := appendAll_eq_ok happend
  simp only [createWithFlags] at hall hfile hflags hversion
  have hv : seg.version ≥ 2 := hversion ▸ UInt8.le_refl 2
  have hdrop : ∀ m, (seg.file.take m).drop headerSize =
      (recordsOf ext codec flags payloads).take (m - headerSize) := fun m => by
    rw [hfile, drop_take, drop_left' (length_segmentHeader id flags)]
  constructor
  · intro h
    have hlen : seg.file.length = headerSize + (recordsOf ext codec flags payloads).length := by
      rw [hfile, length_append, length_segmentHeader]
    have hread := h .stopOnCorrupt seg.file.length seg.file.length le_rfl
    rw [readEntriesWithCodecUpTo, hflags, entriesWithin_of_le hall hlen.ge] at hread
    simp only [hdrop] at hread
    rw [take_of_length_le (by omega)] at hread
    exact entryFits_of_readLoop hext hcodec hv hall hcrc hlen.ge hread
  · intro hfits policy m n hnm
    rw [readEntriesWithCodecUpTo, hflags]
    simp only [hdrop]
    exact readLoop_recordsOf hext hcodec hv policy hall hfits (by omega)

/-- CRC-32 as it is, and blocks that hold the payload as it is behind its length. -/
def storedBlocks : External where
  crc32 := Crc32.crc32
  compressPrependSize b := beBytes 4 b.length ++ b
  decompressSizePrepended c :=
    match readBe 4 c with
    | some (len, block) => if block.length = len then .ok block else .error "wrong length"
    | none => .error "no length"

theorem storedBlocks_lawful : storedBlocks.Lawful where
  decompress_compress b h := by
    have hread := Wire.readBe_beBytes_of_lt (w := 4) (by simpa using h) b
    simp [storedBlocks, hread]
  length_decompress b out h := by
    simp only [storedBlocks] at h
    split at h
    · next len block hread =>
      split at h
      · next hlen =>
        obtain rfl := Except.ok.inj h
        exact hlen ▸ Wire.lt_of_readBe hread
      · exact absurd h (by simp)
    · exact absurd h (by simp)

theorem plainSegmentWriter_lawful : plainSegmentWriter.Lawful := by
  intro b c h
  rw [← Except.ok.inj h]
  rfl

/-- Segment 1 after one entry was appended without compression and encryption. -/
def segmentOf (payload : Bytes) : Segment :=
  { createWithFlags 1 {} with
    file := segmentHeader 1 {} ++ record storedBlocks (0, payload)
    size := headerSize + (4 + 1 + 4 + payload.length) }

theorem readsWholeEntries_iff_three_bytes :
    (segmentOf [1, 2, 3]).ReadsWholeEntries storedBlocks plainSegmentWriter [[1, 2, 3]] ↔
      ∀ p ∈ [[1, 2, 3]], EntryFits storedBlocks plainSegmentWriter {} p :=
  readsWholeEntries_iff storedBlocks plainSegmentWriter storedBlocks_lawful
    plainSegmentWriter_lawful 1 {} [[1, 2, 3]] (segmentOf [1, 2, 3]) rfl (by
      intro p hp entry henc hlong
      obtain rfl := mem_singleton.mp hp
      obtain rfl := Except.ok.inj henc
      exact absurd hlong (by decide))

/-- From `2 ^ 32` bytes on the length field has lost its upper bits: what is read is too short or,
by the checksum, an error. -/
theorem not_readsWholeEntries_of_le (hlong : 2 ^ 32 ≤ payload.length) :
    ¬ (segmentOf payload).ReadsWholeEntries storedBlocks plainSegmentWriter [payload] := by
  intro h
  have henc : encodeEntry storedBlocks plainSegmentWriter {} payload = .ok (0, payload) := rfl
  have hrecords : recordsOf storedBlocks plainSegmentWriter {} [payload] =
      record storedBlocks (0, payload) := by
    simp [recordsOf, henc]
  have hfile : (segmentOf payload).file.length = headerSize + (9 + payload.length) := by
    simp [segmentOf]
  have hwithin : entriesWithin storedBlocks plainSegmentWriter {} (segmentOf payload).file.length
      headerSize [payload] = [payload] := by
    refine entriesWithin_of_le ?_ (by rw [hrecords, hfile, length_record])
    intro p hp
    exact ⟨_, mem_singleton.mp hp ▸ henc⟩
  have hdrop : (segmentOf payload).file.drop headerSize =
      record storedBlocks (0, payload) ++ [] := by
    rw [append_nil]
    exact drop_left' (length_segmentHeader 1 {})
  have hread := h .stopOnCorrupt _ _ (le_refl (segmentOf payload).file.length)
  have hflags : (segmentOf payload).flags = {} := rfl
  rw [readEntriesWithCodecUpTo, hflags, hwithin] at hread
  simp only [take_length, hdrop] at hread
  have hv : (segmentOf payload).version ≥ 2 := UInt8.le_refl 2
  have hmod : payload.length % 2 ^ 32 < payload.length :=
    lt_of_lt_of_le (Nat.mod_lt _ (by decide)) hlong
  rw [readLoop_record hv] at hread
  generalize hk : payload.length % 2 ^ 32 = k at hread hmod
  simp only at hread
  rw [if_neg (by omega)] at hread
  have hshort : payload.take k ≠ payload := fun heq => by
    have hlen := congrArg List.length heq
    rw [length_take_of_le hmod.le] at hlen
    omega
  by_cases hcrc : (storedBlocks.crc32 payload).toNat = (storedBlocks.crc32 (payload.take k)).toNat
  · simp [decodeEntry, hcrc, decryptEntry, decompressEntry, hshort] at hread
  · simp [decodeEntry, hcrc] at hread

theorem not_readsWholeEntries_four_gibibytes :
    ¬ (segmentOf (List.replicate (2 ^ 32) 0)).ReadsWholeEntries storedBlocks plainSegmentWriter
      [List.replicate (2 ^ 32) 0] :=
  not_readsWholeEntries_of_le (by rw [length_replicate])

end CassandraVerified.Storage
