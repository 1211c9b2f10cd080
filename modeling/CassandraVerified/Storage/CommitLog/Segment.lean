import CassandraVerified.Lib.Wire
import CassandraVerified.Storage.Partition

/-!
# Commit log segments

`commitlog/segment.rs`: one append-only file with a 16-byte header and checksummed records `[len:
u32][flags: u8][crc: u32][payload]`. A `Segment` carries the bytes its file has once the buffer of
its writer is flushed. Reads and writes of the file succeed as long as there are bytes.
-/

namespace CassandraVerified.Storage

open Wire (beBytes readBe readByte)

/-- Why the commit log fails. -/
inductive CommitLogError where
  | io (kind : String)
  | crcMismatch (segmentId offset expected actual : Nat)
  | corruptHeader (path : String)
  | serialization (message : String)
  | cdcSpaceLimitExceeded (used limit : Nat)
deriving Repr, DecidableEq

/-- What a reader does at a corrupt entry. -/
inductive CorruptionPolicy where
  | stopOnCorrupt
  | skipAndContinue
deriving Repr, DecidableEq

/-- The functions of other crates that a segment calls: the CRC-32 of `crc32fast` and the block
compression of `lz4_flex`, which puts the uncompressed length in front. -/
structure External where
  crc32 : Bytes → UInt32
  compressPrependSize : Bytes → Bytes
  decompressSizePrepended : Bytes → Except String Bytes

/-- The codec of a segment (`EncryptedSegmentWriter`). -/
structure SegmentCodec where
  isEncrypted : Bool
  encodeBlock : Bytes → Except String Bytes
  decodeBlock : Bytes → Except String Bytes

/-- The pass-through codec of unencrypted segments. -/
def plainSegmentWriter : SegmentCodec where
  isEncrypted := false
  encodeBlock := .ok
  decodeBlock := .ok

/-- How the entries of a segment are written. -/
structure SegmentFlags where
  compressionEnabled : Bool := false
  encryptionEnabled : Bool := false
deriving Repr, DecidableEq

namespace SegmentFlags

def toByte (f : SegmentFlags) : UInt8 :=
  (if f.compressionEnabled then 1 else 0) ||| (if f.encryptionEnabled then 2 else 0)

def fromByte (b : UInt8) : SegmentFlags where
  compressionEnabled := b &&& 1 ≠ 0
  encryptionEnabled := b &&& 2 ≠ 0

end SegmentFlags

/-- `b"CLSG"`. -/
def segmentMagic : Bytes := [0x43, 0x4C, 0x53, 0x47]

def headerSize : Nat := 16

/-- A segment file. -/
structure Segment where
  id : Nat
  file : Bytes
  size : Nat
  flags : SegmentFlags
  version : UInt8
  /-- Whether the segment was created for writing rather than opened for reading. -/
  writable : Bool
deriving Repr, DecidableEq

def segmentHeader (id : Nat) (flags : SegmentFlags) : Bytes :=
  segmentMagic ++ [2] ++ beBytes 8 id ++ [flags.toByte] ++ [0, 0]

def Segment.createWithFlags (id : Nat) (flags : SegmentFlags) : Segment where
  id := id
  file := segmentHeader id flags
  size := headerSize
  flags := flags
  version := 2
  writable := true

section

variable (ext : External) (codec : SegmentCodec)

/-- Compression is kept only if it is enabled, worth trying and a gain. -/
def compressEntry (flags : SegmentFlags) (payload : Bytes) : UInt8 × Bytes :=
  if flags.compressionEnabled && payload.length > 64 &&
      (ext.compressPrependSize payload).length < payload.length then
    (1, ext.compressPrependSize payload)
  else (0, payload)

/-- The payload as it goes into the file, with the flags of its record: compressed, then
encrypted. -/
def encodeEntry (flags : SegmentFlags) (payload : Bytes) : Except CommitLogError (UInt8 × Bytes) :=
  if codec.isEncrypted then
    match codec.encodeBlock (compressEntry ext flags payload).2 with
    | .ok encoded => .ok ((compressEntry ext flags payload).1 ||| 2, encoded)
    | .error e => .error (.serialization e)
  else .ok (compressEntry ext flags payload)

/-- The bytes of a record. A length that needs more than 32 bits is cut (`len() as u32`). -/
def record (entry : UInt8 × Bytes) : Bytes :=
  beBytes 4 entry.2.length ++ [entry.1] ++ beBytes 4 (ext.crc32 entry.2).toNat ++ entry.2

/-- Appends a record and returns the offset at which it starts. -/
def Segment.appendEntryWithCodec (seg : Segment) (payload : Bytes) :
    Except CommitLogError (Segment × Nat) :=
  if seg.writable then
    match encodeEntry ext codec seg.flags payload with
    | .ok entry =>
      .ok ({ seg with
        file := seg.file ++ record ext entry
        size := seg.size + (4 + 1 + 4 + entry.2.length) }, seg.size)
    | .error e => .error e
  else .error (.io "Segment not open for writing")

/-- Opens a segment file for reading, after a check of its header. Version 1 has no flags. -/
def Segment.openForRead (path : String) (file : Bytes) : Except CommitLogError Segment := do
  let eof : CommitLogError := .io "UnexpectedEof"
  let some (magic, rest) := Wire.take 4 file | .error eof
  if magic ≠ segmentMagic then .error (.corruptHeader path)
  let some (version, rest) := readByte rest | .error eof
  if version ≠ 1 ∧ version ≠ 2 then .error (.corruptHeader path)
  let some (id, rest) := readBe 8 rest | .error eof
  if version ≥ 2 then
    let some (fb, rest) := readByte rest | .error eof
    let some _ := Wire.take 2 rest | .error eof
    .ok ⟨id, file, file.length, SegmentFlags.fromByte fb, version, false⟩
  else
    let some _ := Wire.take 3 rest | .error eof
    .ok ⟨id, file, file.length, {}, version, false⟩

/-- The flags and the checksum of a record, which follow its length; version 1 has no flags. -/
def readEntryHeader (version : UInt8) (bs : Bytes) : Option ((UInt8 × Nat) × Bytes) :=
  if version ≥ 2 then do
    let (flags, rest) ← readByte bs
    let (crc, rest) ← readBe 4 rest
    some ((flags, crc), rest)
  else do
    let (crc, rest) ← readBe 4 bs
    some ((0, crc), rest)

def decryptEntry (entryFlags : UInt8) (raw : Bytes) : Except CommitLogError Bytes :=
  if entryFlags &&& 2 ≠ 0 then
    (codec.decodeBlock raw).mapError fun e => .serialization ("commitlog decryption failed: " ++ e)
  else .ok raw

def decompressEntry (entryFlags : UInt8) (decoded : Bytes) : Except CommitLogError Bytes :=
  if entryFlags &&& 1 ≠ 0 then
    (ext.decompressSizePrepended decoded).mapError fun e =>
      .serialization ("LZ4 decompression failed: " ++ e)
  else .ok decoded

/-- Checksum, decryption, decompression. `stop` is the position behind the record. -/
def decodeEntry (segmentId stop : Nat) (entryFlags : UInt8) (storedCrc : Nat) (raw : Bytes) :
    Except CommitLogError Bytes :=
  if storedCrc ≠ (ext.crc32 raw).toNat then
    .error (.crcMismatch segmentId (stop - raw.length - 8) storedCrc (ext.crc32 raw).toNat)
  else
    match decryptEntry codec entryFlags raw with
    | .ok decoded => decompressEntry ext entryFlags decoded
    | .error e => .error e

theorem length_of_readEntryHeader {version : UInt8} {bs rest : Bytes} {h : UInt8 × Nat}
    (hread : readEntryHeader version bs = some (h, rest)) : rest.length ≤ bs.length := by
  have hcrc : ∀ {crc : Nat} {bs rest : Bytes}, readBe 4 bs = some (crc, rest) →
      rest.length ≤ bs.length := fun h => by rw [Wire.length_of_readBe h]; omega
  unfold readEntryHeader at hread
  split at hread
  · cases bs with
    | nil => exact absurd hread (by simp [readByte])
    | cons b bs =>
      simp only [readByte, Option.bind_eq_bind, Option.bind_some, Option.bind_eq_some_iff,
        Option.some.injEq, Prod.mk.injEq, Prod.exists] at hread
      obtain ⟨crc, rest', hr, -, rfl⟩ := hread
      exact (hcrc hr).trans (by simp)
  · simp only [Option.bind_eq_bind, Option.bind_eq_some_iff, Option.some.injEq, Prod.mk.injEq,
      Prod.exists] at hread
    obtain ⟨crc, rest', hr, -, rfl⟩ := hread
    exact hcrc hr

/-- The loop of `read_entries_with_codec_up_to`, from `pos`, where the file holds `rest`, up to
`maxOffset`. -/
def readLoop (segmentId : Nat) (version : UInt8) (policy : CorruptionPolicy)
    (maxOffset pos : Nat) (rest : Bytes) : List (Except CommitLogError Bytes) :=
  match _hlen : readBe 4 rest with
  | none => []
  | some (len, rest₁) =>
    let overhead := if version ≥ 2 then 9 else 8
    if pos + overhead + len > maxOffset then []
    else
      match _hhead : readEntryHeader version rest₁ with
      | none => [.error (.io "UnexpectedEof")]
      | some ((entryFlags, storedCrc), rest₂) =>
        match _hraw : Wire.take len rest₂ with
        | none => [.error (.io "UnexpectedEof")]
        | some (raw, rest₃) =>
          match decodeEntry ext codec segmentId (pos + overhead + len) entryFlags storedCrc raw with
          | .ok payload =>
            .ok payload :: readLoop segmentId version policy maxOffset (pos + overhead + len) rest₃
          | .error e =>
            .error e ::
              match policy with
              | .stopOnCorrupt => []
              | .skipAndContinue => readLoop segmentId version policy maxOffset (pos + overhead + len) rest₃
termination_by rest.length
decreasing_by
  all_goals
    have h1 := Wire.length_of_readBe _hlen
    have h2 := length_of_readEntryHeader _hhead
    have h3 := Wire.length_of_take _hraw
    omega

/-- Reads the records that end at `maxOffset` or before. -/
def Segment.readEntriesWithCodecUpTo (seg : Segment) (policy : CorruptionPolicy)
    (maxOffset : Nat) : List (Except CommitLogError Bytes) :=
  readLoop ext codec seg.id seg.version policy maxOffset headerSize (seg.file.drop headerSize)

def Segment.readEntriesWithCodec (seg : Segment) (policy : CorruptionPolicy) :
    List (Except CommitLogError Bytes) :=
  seg.readEntriesWithCodecUpTo ext codec policy seg.size

/-! ## What a reader should find -/

def Segment.appendAll (seg : Segment) : List Bytes → Except CommitLogError Segment
  | [] => .ok seg
  | p :: ps =>
    match seg.appendEntryWithCodec ext codec p with
    | .ok (seg', _) => seg'.appendAll ps
    | .error e => .error e

/-- The payloads whose records, written one behind the other from position `pos` on, end at `n` or
before. -/
def entriesWithin (flags : SegmentFlags) (n : Nat) : Nat → List Bytes → List Bytes
  | _, [] => []
  | pos, p :: ps =>
    match encodeEntry ext codec flags p with
    | .error _ => entriesWithin flags n pos ps
    | .ok entry =>
      let stop := pos + (record ext entry).length
      if stop ≤ n then p :: entriesWithin flags n stop ps else entriesWithin flags n stop ps

/-- Its length, and where it is compressed the length of the payload, fit in 32 bits. -/
def EntryFits (flags : SegmentFlags) (payload : Bytes) : Prop :=
  ∀ entry, encodeEntry ext codec flags payload = .ok entry → entry.2.length < 2 ^ 32 ∧
      ((compressEntry ext flags payload).1 = 1 → payload.length < 2 ^ 32)

/-- Reading any prefix of the file, up to any position, finds exactly the entries whose records lie
entirely before that position. -/
def Segment.ReadsWholeEntries (seg : Segment) (payloads : List Bytes) : Prop :=
  ∀ policy m n, n ≤ m →
    ({ seg with file := seg.file.take m } : Segment).readEntriesWithCodecUpTo ext codec policy n =
      (entriesWithin ext codec seg.flags n headerSize payloads).map .ok

end

/-- What the documentation of `lz4_flex` promises: the length in front of a block has 32 bits, and
blocks of a payload whose length fits are restored. -/
structure External.Lawful (ext : External) : Prop where
  decompress_compress : ∀ b : Bytes, b.length < 2 ^ 32 →
    ext.decompressSizePrepended (ext.compressPrependSize b) = .ok b
  length_decompress : ∀ b out, ext.decompressSizePrepended b = .ok out → out.length < 2 ^ 32

/-- Decoding inverts encoding. -/
def SegmentCodec.Lawful (codec : SegmentCodec) : Prop :=
  ∀ b c, codec.encodeBlock b = .ok c → codec.decodeBlock c = .ok b

end CassandraVerified.Storage
