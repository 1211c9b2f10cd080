import CassandraVerified.Storage.CommitLog.Segment
import CassandraVerified.Storage.Mutation

/-!
# The commit log

`commitlog/mod.rs`: mutations are appended to a current segment, which is rotated when it is full;
replay reads all segment files in the order of their names; a flush lets whole segments be
discarded, and discarded files may be recycled. `dir` holds the files of the closed segments, and
the operations of the file system succeed.
-/

namespace CassandraVerified.Storage

open Std (ExtTreeMap)

/-- A configured commit log encryptor (`CommitLogEncryptor`). -/
structure CommitLogEncryptor where
  isEnabled : Bool
  encryptSegment : Bytes → Except String Bytes
  decryptSegment : Bytes → Except String Bytes

/-- The settings of the commit log. -/
structure CommitLogConfig where
  maxSegmentSize : Nat := 32 * 1024 * 1024
  compressionEnabled : Bool := false
  corruptionPolicy : CorruptionPolicy := .stopOnCorrupt
  cdcEnabled : Bool := false
  cdcSizeLimit : Nat := 4 * 1024 * 1024 * 1024
  recyclePoolSize : Nat := 0
  encryptor : Option CommitLogEncryptor := none

namespace CommitLogConfig

def encryptionEnabled (config : CommitLogConfig) : Bool := config.encryptor.any (·.isEnabled)

/-- The codec of `append_payload` and `read_segment_payloads`. -/
def codec (config : CommitLogConfig) : SegmentCodec :=
  match config.encryptor with
  | some e =>
    if e.isEnabled then ⟨e.isEnabled, e.encryptSegment, e.decryptSegment⟩ else plainSegmentWriter
  | none => plainSegmentWriter

def segmentFlags (config : CommitLogConfig) : SegmentFlags where
  compressionEnabled := config.compressionEnabled
  encryptionEnabled := config.encryptionEnabled

end CommitLogConfig

/-- Functions of other crates: those of a segment, and the JSON encoding of mutations by
`serde_json`. -/
structure LogExternal extends External where
  toVec : Mutation → Except String Bytes
  fromSlice : Bytes → Except String Mutation

def segmentFilename (id : Nat) : String := "CommitLog-" ++ toString id ++ ".log"

def stripPlus : List Char → List Char
  | '+' :: cs => cs
  | cs => cs

/-- `str::parse::<u64>`: decimal digits, with an optional plus sign, below `2 ^ 64`. -/
def parseU64 (cs : List Char) : Option Nat :=
  let digits := stripPlus cs
  if digits ≠ [] ∧ digits.all Char.isDigit ∧ Nat.ofDigitChars 10 digits 0 < 2 ^ 64 then
    some (Nat.ofDigitChars 10 digits 0)
  else none

/-- The file name without `CommitLog-` and `.log`, if it has both. -/
def segmentNumber? (name : String) : Option (List Char) :=
  let cs := name.toList
  let pre := "CommitLog-".toList
  let post := ".log".toList
  if pre.isPrefixOf cs && post.isSuffixOf (cs.drop pre.length) then
    some ((cs.drop pre.length).take (cs.length - pre.length - post.length))
  else none

def parseSegmentFilename (name : String) : Option Nat := (segmentNumber? name).bind parseU64

/-- The commit log, with the files of its directory. -/
structure CommitLog where
  config : CommitLogConfig
  current : Segment
  nextSegmentId : Nat
  dir : ExtTreeMap String Bytes
  /-- File names of discarded segments that may be used again, the last one first. -/
  recyclePool : List String
  /-- Whether the current segment is linked into the raw directory of change data capture. -/
  cdcCurrentSegmentMirrored : Bool

namespace CommitLog

def files (log : CommitLog) : ExtTreeMap String Bytes :=
  log.dir.insert (segmentFilename log.current.id) log.current.file

/-- Opens the log over the segment files `dir` (`CommitLog::open`). -/
def openLog (config : CommitLogConfig) (dir : ExtTreeMap String Bytes) : CommitLog :=
  let maxId := (dir.keys.filterMap parseSegmentFilename).foldl max 0
  { config := config
    current := .createWithFlags (maxId + 1) config.segmentFlags
    nextSegmentId := maxId + 2
    dir := dir
    recyclePool := []
    cdcCurrentSegmentMirrored := false }

/-- A segment file for `newId`: a recycled one, under a new name, if the pool has one that is still
there. It holds a fresh header. -/
def createOrRecycleSegment (log : CommitLog) (newId : Nat) : CommitLog :=
  let fresh := Segment.createWithFlags newId log.config.segmentFlags
  match log.recyclePool with
  | [] => { log with current := fresh }
  | path :: pool => { log with current := fresh, dir := log.dir.erase path, recyclePool := pool }

def rotate (log : CommitLog) : CommitLog :=
  { log with
    dir := log.files
    nextSegmentId := log.nextSegmentId + 1
    cdcCurrentSegmentMirrored := false }.createOrRecycleSegment log.nextSegmentId

section

variable (ext : LogExternal)

def makeRoom (log : CommitLog) (payload : Bytes) : CommitLog :=
  if log.current.size + payload.length + 12 > log.config.maxSegmentSize then log.rotate else log

/-- The budget check of change data capture: `used` is the size of the raw directory. The current
segment counts too, unless it is mirrored there already. -/
def ensureCdcSpaceBudget (log : CommitLog) (payload : Bytes) (used : Nat) :
    Except CommitLogError Unit :=
  match encodeEntry ext.toExternal log.config.codec log.current.flags payload with
  | .error e => .error e
  | .ok entry =>
    let current := if log.cdcCurrentSegmentMirrored then 0 else log.current.size
    if used + current + (4 + 1 + 4 + entry.2.length) > log.config.cdcSizeLimit then
      .error (.cdcSpaceLimitExceeded used log.config.cdcSizeLimit)
    else .ok ()

/-- Appends a mutation, with `cdcUsed` bytes in the raw directory. Returns the id of its segment and
its offset there. -/
def append (log : CommitLog) (m : Mutation) (cdcUsed : Nat) :
    CommitLog × Except CommitLogError (Nat × Nat) :=
  match ext.toVec m with
  | .error e => (log, .error (.serialization e))
  | .ok payload =>
    let log := log.makeRoom payload
    let shouldTrackCdc := m.cdcEnabled && log.config.cdcEnabled
    match if shouldTrackCdc then log.ensureCdcSpaceBudget ext payload cdcUsed else .ok () with
    | .error e => (log, .error e)
    | .ok _ =>
      match log.current.appendEntryWithCodec ext.toExternal log.config.codec payload with
      | .error e => (log, .error e)
      | .ok (seg, offset) =>
        ({ log with
            current := seg
            cdcCurrentSegmentMirrored := log.cdcCurrentSegmentMirrored || shouldTrackCdc },
          .ok (seg.id, offset))

/-- Appends, each with the size of the raw directory it finds: the log after them, and the mutations
that returned `Ok`. -/
def appendAll (log : CommitLog) : List (Mutation × Nat) → CommitLog × List Mutation
  | [] => (log, [])
  | (m, cdcUsed) :: calls =>
    match log.append ext m cdcUsed with
    | (log', .ok _) => ((log'.appendAll calls).1, m :: (log'.appendAll calls).2)
    | (log', .error _) => log'.appendAll calls

/-- What a replay has read. -/
structure ReplayResult where
  mutations : List Mutation
  replayedSegments : Nat
  corruptEntries : Nat
deriving Repr, DecidableEq

/-- What decodes is replayed, and a corrupt entry ends the segment under `stopOnCorrupt`. -/
def replayEntries (policy : CorruptionPolicy) :
    List (Except CommitLogError Bytes) → List Mutation × Nat
  | [] => ([], 0)
  | .ok payload :: entries =>
    let (mutations, corrupt) := replayEntries policy entries
    match ext.fromSlice payload with
    | .ok m => (m :: mutations, corrupt)
    | .error _ => (mutations, corrupt + 1)
  | .error _ :: entries =>
    match policy with
    | .stopOnCorrupt => ([], 1)
    | .skipAndContinue =>
      let (mutations, corrupt) := replayEntries policy entries
      (mutations, corrupt + 1)

/-- One segment file; one whose header does not read is skipped. -/
def replaySegment (config : CommitLogConfig) (policy : CorruptionPolicy) (result : ReplayResult)
    (file : String × Bytes) : ReplayResult :=
  match Segment.openForRead file.1 file.2 with
  | .error _ => result
  | .ok seg =>
    let (mutations, corrupt) :=
      replayEntries ext policy (seg.readEntriesWithCodec ext.toExternal config.codec policy)
    { mutations := result.mutations ++ mutations
      replayedSegments := result.replayedSegments + 1
      corruptEntries := result.corruptEntries + corrupt }

/-- `replay_with_policy` sorts them by path, which is the order of the map. -/
def segmentFiles (log : CommitLog) : List (String × Bytes) :=
  log.files.toList.filter fun f => (segmentNumber? f.1).isSome

def replayWithPolicy (log : CommitLog) (policy : CorruptionPolicy) : ReplayResult :=
  log.segmentFiles.foldl (replaySegment ext log.config policy) ⟨[], 0, 0⟩

def replay (log : CommitLog) : ReplayResult := log.replayWithPolicy ext log.config.corruptionPolicy

end

/-- Keeps the file for recycling if there is room in the pool, and removes it otherwise. -/
def discardSegment (log : CommitLog) (name : String) : CommitLog :=
  if log.recyclePool.length < log.config.recyclePoolSize then
    { log with recyclePool := name :: log.recyclePool }
  else { log with dir := log.dir.erase name }

/-- Discarded if its id is at most `upToSegmentId` and not that of the current segment. -/
def discardIfCompleted (upToSegmentId : Nat) (log : CommitLog) (name : String) : CommitLog :=
  match parseSegmentFilename name with
  | some id => if id ≤ upToSegmentId ∧ id ≠ log.current.id then log.discardSegment name else log
  | none => log

/-- Discards the segments with ids up to `upToSegmentId`, except the current one. `listing` is the
directory in the order in which the file system lists it. -/
def discardCompletedSegments (log : CommitLog) (upToSegmentId : Nat) (listing : List String) :
    CommitLog :=
  listing.foldl (discardIfCompleted upToSegmentId) log

end CommitLog

/-- `serde_json`, the compression and the configured encryptor undo what they did. -/
structure LogExternal.Lawful (ext : LogExternal) (config : CommitLogConfig) : Prop where
  external : ext.toExternal.Lawful
  codec : config.codec.Lawful
  fromSlice : ∀ m payload, ext.toVec m = .ok payload → ext.fromSlice payload = .ok m

/-- The record of a mutation can be read back (`EntryFits`). -/
def Mutation.Fits (ext : LogExternal) (config : CommitLogConfig) (m : Mutation) : Prop :=
  ∀ payload, ext.toVec m = .ok payload →
    EntryFits ext.toExternal config.codec config.segmentFlags payload

end CassandraVerified.Storage
