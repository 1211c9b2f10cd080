import CassandraVerified.Lib.Wire
import Mathlib.Data.List.Basic

/-!
# The compaction journal

`compaction/journal.rs`: every change to the set of SSTables is a line of JSON with a checksum,
appended to a file. What the JSON library does is `JournalCodec`. A crash may cut the file inside
the last record; the journal is then opened again, and appends go on behind what is left.
-/

namespace CassandraVerified.Storage

/-- A change of the set of live SSTables. -/
inductive JournalEntry where
  | add (sstableId : Nat)
  | remove (sstableId : Nat)
  | replace (removed added : List Nat)
  | checkpoint (activeSSTables : List Nat)
deriving DecidableEq, Repr

/-- An entry with its number and checksum. -/
structure JournalRecord where
  sequence : Nat
  entry : JournalEntry
  crc32 : UInt32
deriving DecidableEq, Repr

def newline : UInt8 := 10

/-- Blanks, tabs and line breaks only (`trim().is_empty()`). -/
def isBlank (line : Wire.Bytes) : Bool := line.all fun b => b = 32 ∨ (9 ≤ b ∧ b ≤ 13)

/-- The JSON texts of records and entries, and their checksums. -/
structure JournalCodec where
  entryJson : JournalEntry → Wire.Bytes
  crc32 : Wire.Bytes → UInt32
  encode : JournalRecord → Wire.Bytes
  decode : Wire.Bytes → Option JournalRecord
  decode_encode : ∀ r, decode (encode r) = some r
  isBlank_encode : ∀ r, isBlank (encode r) = false
  /-- A text has no line breaks. -/
  newline_notMem : ∀ r, newline ∉ encode r
  /-- A text that breaks off is refused. -/
  decode_take : ∀ r n, n < (encode r).length → decode ((encode r).take n) = none
  /-- Two texts on one line are refused, also if the first breaks off. -/
  decode_append : ∀ r n r', (encode r).take n ≠ [] → decode ((encode r).take n ++ encode r') = none

namespace Journal

variable (codec : JournalCodec)

/-- The lines of a file. What follows the last line break is empty or a last line. -/
def lines (file : Wire.Bytes) : List Wire.Bytes := file.splitOn newline

def parse (line : Wire.Bytes) : Option JournalRecord :=
  if isBlank line then none else codec.decode line

/-- `Journal::open` looks for the highest sequence number. -/
def openSequence (file : Wire.Bytes) : Nat := ((lines file).filterMap (parse codec)).foldl
    (fun next r => if r.sequence ≥ next then r.sequence + 1 else next) 1

def record (sequence : Nat) (entry : JournalEntry) : JournalRecord :=
  { sequence, entry, crc32 := codec.crc32 (codec.entryJson entry) }

def append (file : Wire.Bytes) (sequence : Nat) (entry : JournalEntry) : Wire.Bytes :=
  file ++ codec.encode (record codec sequence entry) ++ [newline]

/-- Records with a checksum that does not match are skipped, as texts are that are no records. -/
def replay (file : Wire.Bytes) : List JournalEntry := (lines file).filterMap fun line =>
    ((parse codec line).filter fun r => codec.crc32 (codec.entryJson r.entry) = r.crc32).map
      JournalRecord.entry

end Journal

/-- What happens to a journal. -/
inductive JournalEvent where
  | append (entry : JournalEntry)
  /-- The process stops, and of the last record at most `keep` bytes are left. -/
  | crash (keep : Nat)
  | reopen

/-- The file, the next sequence number while the journal is open, and the appended entries: those
before the last, the last one if its record is whole, and where that record begins and ends. -/
structure JournalRun where
  file : Wire.Bytes := []
  next : Option Nat := some 1
  settled : List JournalEntry := []
  last : Option JournalEntry := none
  start : Nat := 0
  stop : Nat := 0

namespace JournalRun

variable (codec : JournalCodec)

/-- An append to a closed journal is ignored. -/
def step (s : JournalRun) : JournalEvent → JournalRun
  | .append entry =>
    match s.next with
    | none => s
    | some sequence =>
      { file := Journal.append codec s.file sequence entry
        next := some (sequence + 1)
        settled := s.settled ++ s.last.toList
        last := some entry
        start := s.file.length
        stop := s.file.length + (codec.encode (Journal.record codec sequence entry)).length }
  | .crash keep =>
    { s with
      file := s.file.take (s.start + keep)
      next := none
      last := if s.stop ≤ s.start + keep then s.last else none }
  | .reopen => { s with next := some (Journal.openSequence codec s.file) }

def run (events : List JournalEvent) : JournalRun := events.foldl (step codec) {}

/-- The entries that were appended and are completely written. -/
def survivors (s : JournalRun) : List JournalEntry := s.settled ++ s.last.toList

def AtLineStart (s : JournalRun) : Prop := s.file.getLast? ∈ [none, some newline]

instance (s : JournalRun) : Decidable s.AtLineStart :=
  inferInstanceAs (Decidable (_ ∈ [none, some newline]))

/-- No append comes behind a line that breaks off. -/
def Whole (s : JournalRun) : List JournalEvent → Prop
  | [] => True
  | .append entry :: events => s.AtLineStart ∧ (s.step codec (.append entry)).Whole events
  | event :: events => (s.step codec event).Whole events

end JournalRun

end CassandraVerified.Storage
