import CassandraVerified.Coordinator.Hints

/-!
# Hints after a crash

Hints are appended to the segment files of one target, a crash cuts off the end of the last file,
and the files are drained.
-/

namespace CassandraVerified.Coordinator

open Storage (Bytes)

variable {E : Type}

/-- The segment files of a target while hints are appended. -/
structure SegmentRun (E : Type) where
  dir : HintDir
  active : Option HintSegmentWriter
  /-- The hints that were written to each file, for the record. -/
  log : String → List (Hint E)

section

variable (ext : HintExternal E) (targetId : String)

namespace SegmentRun

def start (dir : HintDir) : SegmentRun E := ⟨dir, none, fun _ => []⟩

def append (r : SegmentRun E) (appended : Hint E × HintClock) : SegmentRun E :=
  let (dir, writer, outcome) :=
    HintStore.appendOrRotate ext targetId r.dir r.active appended.1 appended.2
  { dir
    active := some writer
    log :=
      if outcome = .written then
        Function.update r.log writer.filename (r.log writer.filename ++ [appended.1])
      else r.log }

def appendAll (r : SegmentRun E) (appended : List (Hint E × HintClock)) : SegmentRun E :=
  appended.foldl (append ext targetId) r

/-- The directory after a crash that keeps the first `kept` bytes of the open file. -/
def crash (r : SegmentRun E) (kept : Nat) : HintDir :=
  match r.active with
  | none => r.dir
  | some writer => r.dir.insert writer.filename ((r.dir.getD writer.filename []).take kept)

end SegmentRun

def recordOf (hint : Hint E) : Bytes :=
  match ext.toVec hint with
  | some data => hintRecord data
  | none => []

/-- What is left of a file: the complete hints, and a torn one with the number of its bytes that are
left. -/
structure Fragment (E : Type) where
  complete : List (Hint E)
  torn : Option (Hint E × Nat)

def fragment : Nat → List (Hint E) → Fragment E
  | _, [] => ⟨[], none⟩
  | kept, hint :: hints =>
    if (recordOf ext hint).length ≤ kept then
      let rest := fragment (kept - (recordOf ext hint).length) hints
      ⟨hint :: rest.complete, rest.torn⟩
    else ⟨[], some (hint, kept)⟩

/-- What a crash leaves of each file. -/
def SegmentRun.fragmentOf (r : SegmentRun E) (kept : Nat) (filename : String) : Fragment E :=
  if r.active.map HintSegmentWriter.filename = some filename then
    fragment ext kept (r.log filename)
  else ⟨r.log filename, none⟩

/-- The data of the hint is longer than a reader takes. -/
def oversize (hint : Hint E) : Bool := (ext.toVec hint).any (·.length > maxHintLength)

/-- The checksum of the torn record is complete, and then the length or the data ends too early. -/
def failsReading (torn : Hint E × Nat) : Bool := 4 ≤ torn.2 && (torn.2 < 8 || !oversize ext torn.1)

/-- A reader comes to the end of the file, or to a record that it takes for the end. -/
def Fragment.Readable (f : Fragment E) : Prop := (∃ hint ∈ f.complete, oversize ext hint = true) ∨
    ∀ torn, f.torn = some torn → failsReading ext torn = false

/-- After the crash, a drain returns every hint that is completely written and not expired. -/
def DrainsWritten (store : HintStore E) (target : E) (r : SegmentRun E) (kept : Nat)
    (now : Int64) : Prop :=
  ∀ filename, ∀ hint ∈ (r.fragmentOf ext kept filename).complete,
    hint.createdAt ≥ store.config.cutoff now →
    hint ∈ ({ store with segments := some (r.crash kept) }.drainFromSegments ext now target).2

/-- Every hint that is completely written and not expired stands in a readable file, with no record
before it that is taken for the end. -/
def WrittenReadable (config : HintConfig) (r : SegmentRun E) (kept : Nat) (now : Int64) : Prop :=
  ∀ filename, ∀ hint ∈ (r.fragmentOf ext kept filename).complete,
    hint.createdAt ≥ config.cutoff now →
    ∃ filename', (r.fragmentOf ext kept filename').Readable ext ∧
      hint ∈ (r.fragmentOf ext kept filename').complete.takeWhile (! oversize ext ·)

end

end CassandraVerified.Coordinator
