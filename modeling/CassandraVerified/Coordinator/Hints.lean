import CassandraVerified.Coordinator.HintSegment

/-!
# The hint store

`HintStore` of `hints.rs`: queues of hints in memory, and, if the store has a directory, a copy of
every hint in segment files. A drain takes the queue of a target if there is one and reads the files
otherwise.
-/

namespace CassandraVerified.Coordinator

open Storage (Bytes)

variable {E : Type}

/-- Limits on the hints. -/
structure HintConfig where
  enabled : Bool := true
  /-- In milliseconds. -/
  maxHintWindow : Nat := 3 * 3600 * 1000
  maxHintsPerEndpoint : Nat := 100000
  maxTotalHints : UInt64 := 1000000
deriving Repr, DecidableEq

/-- Hints created before this are expired (`now_ms - window_ms` in `i64`). -/
def HintConfig.cutoff (config : HintConfig) (now : Int64) : Int64 :=
  now - Int64.ofNat config.maxHintWindow

/-- The hints of a coordinator, in memory. -/
structure HintStore (E : Type) where
  config : HintConfig
  /-- Hints by target endpoint. -/
  hints : E → Option (List (Hint E))
  nextId : UInt64
  totalHints : UInt64
  paused : Bool
  /-- The hints directory, if hints are persisted. -/
  segments : Option HintDir
  /-- The open segment of a target, by how the target is displayed. -/
  activeWriters : String → Option HintSegmentWriter

/-- The clock when a hint is stored: for the hint, for a new segment, and for one more if that is
full. -/
structure HintClock where
  now : Int64
  opened : Int64
  rotated : Int64

namespace HintStore

def withConfig (config : HintConfig) (segments : Option HintDir) : HintStore E where
  config := config
  hints _ := none
  nextId := 1
  totalHints := 0
  paused := false
  segments := segments
  activeWriters _ := none

def resume (s : HintStore E) : HintStore E := { s with paused := false }

variable (ext : HintExternal E)

def openSegment (targetId : String) (dir : HintDir) (active : Option HintSegmentWriter)
    (now : Int64) : HintDir × HintSegmentWriter :=
  match active with
  | some writer => (dir, writer)
  | none => dir.writerFor targetId now

/-- Appends a hint to the open segment of its target, or to one more if that is full. -/
def appendOrRotate (targetId : String) (dir : HintDir) (active : Option HintSegmentWriter)
    (hint : Hint E) (clock : HintClock) : HintDir × HintSegmentWriter × Appended :=
  let opened := openSegment targetId dir active clock.opened
  let first := opened.2.append ext opened.1 hint
  if first.2.2 = .needsRotation then
    let rotated := first.1.writerFor targetId clock.rotated
    rotated.2.append ext rotated.1 hint
  else first

def persistIn (dir : HintDir) (s : HintStore E) (hint : Hint E) (clock : HintClock) :
    HintStore E :=
  let targetId := ext.display hint.target
  let (dir, writer, _) := appendOrRotate ext targetId dir (s.activeWriters targetId) hint clock
  { s with
    segments := some dir
    activeWriters := Function.update s.activeWriters targetId (some writer) }

def persist (s : HintStore E) (hint : Hint E) (clock : HintClock) : HintStore E :=
  match s.segments with
  | some dir => persistIn ext dir s hint clock
  | none => s

variable [DecidableEq E]

/-- Puts a hint at the end of the queue of its target. A full queue loses its oldest hint. -/
def enqueue (s : HintStore E) (hint : Hint E) : HintStore E :=
  let queue := (s.hints hint.target).getD []
  if queue.length ≥ s.config.maxHintsPerEndpoint then
    { s with hints := Function.update s.hints hint.target (some (queue.drop 1 ++ [hint])) }
  else
    { s with
      hints := Function.update s.hints hint.target (some (queue ++ [hint]))
      totalHints := s.totalHints + 1 }

def newHint (s : HintStore E) (clock : HintClock) (target : E) (mutation : CoordinatedMutation) :
    Hint E :=
  ⟨target, mutation, clock.now, s.nextId⟩

/-- Stores a hint for a down replica, and says whether it did. -/
def storeHint (s : HintStore E) (clock : HintClock) (target : E) (mutation : CoordinatedMutation) :
    HintStore E × Bool :=
  if !s.config.enabled then (s, false)
  else if s.totalHints ≥ s.config.maxTotalHints then (s, false)
  else
    let hint := s.newHint clock target mutation
    ((enqueue { s with nextId := s.nextId + 1 } hint).persist ext hint clock, true)

omit [DecidableEq E] in
/-- The hints of a segment file, or none if it cannot be read to its end. -/
def segmentHints (file : String × Bytes) : List (Hint E) :=
  match readAll ext file.2 with
  | .ok hints => hints
  | .error _ => []

/-- Reads the segment files of a target, and deletes each of them. -/
def drainFromSegments (s : HintStore E) (now : Int64) (target : E) : HintStore E × List (Hint E) :=
  match s.segments with
  | none => (s, [])
  | some dir =>
    let targetId := ext.display target
    let files := dir.segmentsFor targetId
    ({ s with
        segments := some (files.foldl (fun dir file => dir.erase file.1) dir)
        activeWriters := Function.update s.activeWriters targetId none },
      (files.flatMap (segmentHints ext)).filter fun hint => hint.createdAt ≥ s.config.cutoff now)

/-- Takes all hints for a target endpoint that are not expired. -/
def drainHints (s : HintStore E) (now : Int64) (target : E) : HintStore E × List (Hint E) :=
  if s.paused then (s, [])
  else
    match s.hints target with
    | some queue =>
      ({ s with
          hints := Function.update s.hints target none
          totalHints := s.totalHints - UInt64.ofNat queue.length },
        queue.filter fun hint => hint.createdAt ≥ s.config.cutoff now)
    | none => s.drainFromSegments ext now target

end HintStore

end CassandraVerified.Coordinator
