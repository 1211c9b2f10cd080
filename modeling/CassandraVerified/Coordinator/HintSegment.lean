import CassandraVerified.Lib.Crc32
import CassandraVerified.Lib.Wire
import CassandraVerified.Coordinator.Mutation

/-!
# Hint segments

`hint_segment.rs`: the files in which hints for a target are kept until the target is back. A record
is `[crc: u32][len: u32][data]`, little-endian, where the data is the hint in JSON. The bytes here
are those the file has once the buffer of its writer is flushed.
-/

namespace CassandraVerified.Coordinator

open Std (ExtTreeMap)
open Storage (Bytes)
open Wire (leBytes readLe take)

variable {E : Type}

/-- A stored hint: a mutation to be replayed when the target node recovers. -/
structure Hint (E : Type) where
  target : E
  mutation : CoordinatedMutation
  createdAt : Int64
  hintId : UInt64
deriving DecidableEq

/-- Functions of other crates: how an endpoint is displayed, and the JSON encoding of hints by
`serde_json`. -/
structure HintExternal (E : Type) where
  display : E → String
  toVec : Hint E → Option Bytes
  fromSlice : Bytes → Option (Hint E)

/-- What is written can be read back. -/
def HintExternal.Lawful (ext : HintExternal E) : Prop :=
  ∀ hint data, ext.toVec hint = some data → ext.fromSlice data = some hint

/-- `DEFAULT_MAX_SEGMENT_SIZE`, which the segment manager of every hint store has. -/
def defaultMaxSegmentSize : Nat := 128 * 1024 * 1024

def hintFilename (targetId : String) (createdAt : Int64) : String :=
  targetId ++ "-" ++ toString createdAt ++ ".hints"

abbrev HintDir := ExtTreeMap String Bytes

/-- An open segment file. -/
structure HintSegmentWriter where
  filename : String
  bytesWritten : Nat
deriving Repr, DecidableEq

def hintRecord (data : Bytes) : Bytes :=
  leBytes 4 (Crc32.crc32 data).toNat ++ leBytes 4 data.length ++ data

/-- Opens a new file, or one of this name that exists, for appending. -/
def HintDir.writerFor (dir : HintDir) (targetId : String) (now : Int64) :
    HintDir × HintSegmentWriter :=
  let filename := hintFilename targetId now
  (dir.insert filename (dir.getD filename []), ⟨filename, 0⟩)

/-- What an append returns. -/
inductive Appended where
  | written
  | needsRotation
  | failed
deriving Repr, DecidableEq

def HintSegmentWriter.append (ext : HintExternal E) (w : HintSegmentWriter) (dir : HintDir)
    (hint : Hint E) : HintDir × HintSegmentWriter × Appended :=
  match ext.toVec hint with
  | none => (dir, w, .failed)
  | some data =>
    let entrySize := 4 + 4 + data.length
    if w.bytesWritten + entrySize > defaultMaxSegmentSize then (dir, w, .needsRotation)
    else
      (dir.insert w.filename (dir.getD w.filename [] ++ hintRecord data),
        { w with bytesWritten := w.bytesWritten + entrySize }, .written)

/-- A read ended in the middle of a record (`ErrorKind::UnexpectedEof`). -/
inductive UnexpectedEof where
  | unexpectedEof
deriving Repr, DecidableEq

/-- What one turn of the loop of `next_hint` finds. -/
inductive HintEntry (E : Type) where
  | stop
  | corrupted (rest : Bytes)
  | hint (hint : Hint E) (rest : Bytes)

/-- `64 * 1024 * 1024`, above which a length is taken to be corrupt. -/
def maxHintLength : Nat := 64 * 1024 * 1024

def entryData (ext : HintExternal E) (expectedCrc length : Nat) (bs : Bytes) :
    Except UnexpectedEof (HintEntry E) :=
  if length > maxHintLength then .ok .stop
  else
    match take length bs with
    | none => .error .unexpectedEof
    | some (data, rest) =>
      if (Crc32.crc32 data).toNat ≠ expectedCrc then .ok (.corrupted rest)
      else
        match ext.fromSlice data with
        | some hint => .ok (.hint hint rest)
        | none => .ok (.corrupted rest)

def nextEntry (ext : HintExternal E) (bs : Bytes) : Except UnexpectedEof (HintEntry E) :=
  match readLe 4 bs with
  | none => .ok .stop
  | some (expectedCrc, bs) =>
    match readLe 4 bs with
    | none => .error .unexpectedEof
    | some (length, bs) => entryData ext expectedCrc length bs

/-- The next hint that can be read. Each turn takes bytes, so that `fuel` above their number is
enough. -/
def nextHint (ext : HintExternal E) : Nat → Bytes → Except UnexpectedEof (Option (Hint E × Bytes))
  | 0, _ => .ok none
  | fuel + 1, bs =>
    match nextEntry ext bs with
    | .error e => .error e
    | .ok .stop => .ok none
    | .ok (.corrupted rest) => nextHint ext fuel rest
    | .ok (.hint hint rest) => .ok (some (hint, rest))

def readHints (ext : HintExternal E) : Nat → Bytes → Except UnexpectedEof (List (Hint E))
  | 0, _ => .ok []
  | fuel + 1, bs =>
    match nextHint ext (bs.length + 1) bs with
    | .error e => .error e
    | .ok none => .ok []
    | .ok (some (hint, rest)) =>
      match readHints ext fuel rest with
      | .error e => .error e
      | .ok hints => .ok (hint :: hints)

def readAll (ext : HintExternal E) (bs : Bytes) : Except UnexpectedEof (List (Hint E)) :=
  readHints ext (bs.length + 1) bs

/-- The file is listed for a target: its name starts with the target and ends as hints do. -/
def isSegmentOf (targetId filename : String) : Bool :=
  targetId.toList.isPrefixOf filename.toList && ".hints".toList.isSuffixOf filename.toList

def HintDir.segmentsFor (dir : HintDir) (targetId : String) : List (String × Bytes) :=
  dir.toList.filter fun file => isSegmentOf targetId file.1

end CassandraVerified.Coordinator
