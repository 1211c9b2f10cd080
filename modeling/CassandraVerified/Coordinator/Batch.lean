import CassandraVerified.Paxos.State
import CassandraVerified.Coordinator.Write

/-!
# Logged batches

`batch.rs`: the batch log with its copy on disk, `execute_batch` and `replay_batchlog`. A restart or
another call may come between any two steps of a call, so a call is a task that goes on piece by
piece. A file is there as a whole or not at all, since it is renamed when it is written.
-/

namespace CassandraVerified.Coordinator

open Std (ExtTreeMap)
open Storage (Bytes)
open Paxos (Uuid)

/-- The kinds of batches. -/
inductive BatchType where
  | logged
  | unlogged
  | counter
deriving Repr, DecidableEq

/-- A batch in the log. -/
structure BatchEntry where
  id : Uuid
  batchType : BatchType
  mutations : List CoordinatedMutation
  createdAt : Int64
  version : UInt32
deriving DecidableEq

/-- The JSON encoding of batch entries by `serde_json`. -/
structure BatchExternal where
  toVec : BatchEntry → Option Bytes
  fromSlice : Bytes → Option BatchEntry

/-- What is written can be read back. -/
def BatchExternal.Lawful (ext : BatchExternal) : Prop :=
  ∀ entry data, ext.toVec entry = some data → ext.fromSlice data = some entry

/-- The log of batches, in memory and on disk. -/
structure BatchLog where
  entries : ExtTreeMap Uuid BatchEntry
  /-- The files of the persistence directory. -/
  dir : ExtTreeMap Uuid Bytes
  replayInProgress : Bool
  replayRateLimit : Nat
  retryCounts : Uuid → Nat

namespace BatchLog

def new (replayRateLimit : Nat) : BatchLog := ⟨∅, ∅, false, replayRateLimit, fun _ => 0⟩

variable (ext : BatchExternal)

/-- A batch log that is created over the directory, as after a restart. -/
def withPersistenceDir (log : BatchLog) : BatchLog where
  entries := ExtTreeMap.ofList
    ((log.dir.toList.filterMap fun file => ext.fromSlice file.2).map fun entry => (entry.id, entry))
  dir := log.dir
  replayInProgress := false
  replayRateLimit := log.replayRateLimit
  retryCounts _ := 0

def persistEntry (log : BatchLog) (entry : BatchEntry) : BatchLog :=
  match ext.toVec entry with
  | some data => { log with dir := log.dir.insert entry.id data }
  | none => log

def insertEntry (log : BatchLog) (entry : BatchEntry) : BatchLog :=
  { log with entries := log.entries.insert entry.id entry }

def removeEntry (log : BatchLog) (id : Uuid) : BatchLog :=
  { log with entries := log.entries.erase id }

def removePersistedEntry (log : BatchLog) (id : Uuid) : BatchLog :=
  { log with dir := log.dir.erase id }

def incrementRetry (log : BatchLog) (id : Uuid) : BatchLog :=
  { log with retryCounts := Function.update log.retryCounts id (log.retryCounts id + 1) }

def clearRetry (log : BatchLog) (id : Uuid) : BatchLog :=
  { log with retryCounts := Function.update log.retryCounts id 0 }

/-- The entries older than the given age in milliseconds, of those in `order`: the map has them in
some order. -/
def expiredEntries (log : BatchLog) (order : List Uuid) (now : Int64) (maxAge : Nat) :
    List BatchEntry :=
  (order.filterMap fun id => log.entries[id]?).filter fun entry =>
    entry.createdAt < now - Int64.ofNat maxAge

/-- An entry that has failed recently. -/
def backsOff (log : BatchLog) (entry : BatchEntry) (now : Int64) : Bool :=
  let retryCount := log.retryCounts entry.id
  let backoffMs := min (2 ^ min retryCount 18 * 1000) 300000
  let ageMs := (now - entry.createdAt).toUInt64.toNat
  retryCount > 0 && ageMs < backoffMs * retryCount

end BatchLog

/-- Limits on the size of a batch. -/
structure BatchGuardrails where
  failThreshold : Nat := 50 * 1024
  maxMutationsPerBatch : Nat := 65535
deriving Repr, DecidableEq

/-- `validate_batch`, with the text of the error. -/
def BatchGuardrails.validateBatch (guardrails : BatchGuardrails)
    (mutations : List CoordinatedMutation) (batchType : BatchType) : Except String Unit :=
  let totalSize := (mutations.map CoordinatedMutation.estimatedSize).sum
  if mutations.isEmpty then .error "Empty batch"
  else if mutations.length > guardrails.maxMutationsPerBatch then
    .error ("Batch contains " ++ toString mutations.length ++ " mutations, exceeds limit of " ++
      toString guardrails.maxMutationsPerBatch)
  else if totalSize > guardrails.failThreshold then
    .error ("Batch too large: " ++ toString totalSize ++ " bytes exceeds fail threshold of " ++
      toString guardrails.failThreshold ++ " bytes")
  else if batchType = .counter ∧ ¬ mutations.all (·.kind = .counter) then
    .error "Counter batch contains non-counter mutations"
  else if batchType ≠ .counter ∧ mutations.any (·.kind = .counter) then
    .error "Non-counter batch contains counter mutations"
  else .ok ()

/-- What became of the entries in a replay. -/
structure ReplayCounts where
  replayed : Nat
  failed : Nat
  skippedRateLimit : Nat
deriving Repr, DecidableEq

/-- Where a call stands. -/
inductive BatchTask where
  /-- `execute_batch` has made an entry. -/
  | storing (entry : BatchEntry)
  | persisted (entry : BatchEntry)
  /-- The mutations before `next` have been written. -/
  | executing (batchId : Option Uuid) (mutations : List CoordinatedMutation) (next : Nat)
  /-- The entry is out of memory, where it was if `present`; its file is to be deleted. -/
  | removing (id : Uuid) (present : Bool)
  /-- `replay_batchlog` looks at the next entry. -/
  | replaying (expired : List BatchEntry) (counts : ReplayCounts)
  /-- It has tried to write the mutations before `next`. -/
  | replayWriting (entry : BatchEntry) (next : Nat) (allOk : Bool) (expired : List BatchEntry)
      (counts : ReplayCounts)
  /-- As `removing`. -/
  | replayRemoving (entry : BatchEntry) (present : Bool) (expired : List BatchEntry)
      (counts : ReplayCounts)
  /-- Returned, or ended by a restart. -/
  | ended

/-- A call of `coordinate_write` for a mutation of a batch. -/
structure WriteCall where
  /-- The call of `execute_batch` or `replay_batchlog` that made it. -/
  call : Nat
  batchId : Option Uuid
  position : Nat
  mutation : CoordinatedMutation
  ok : Bool
deriving DecidableEq

/-- The log, the calls on it, and what has happened. -/
structure BatchSystem where
  guardrails : BatchGuardrails
  batchlog : BatchLog
  tasks : List BatchTask
  /-- The entries that were made, and those whose file was written, for the record. -/
  made : List BatchEntry
  stored : List BatchEntry
  /-- The writes so far, for the record. -/
  writes : List WriteCall

/-- The steps of the system. -/
inductive BatchStep where
  /-- `execute_batch` is called; `id` is the identifier that it draws if it needs one. -/
  | executeBatch (batchType : BatchType) (mutations : List CoordinatedMutation) (id : Uuid)
      (now : Int64)
  | replayBatchlog (order : List Uuid) (now : Int64) (maxAge : Nat)
  /-- A call goes on. If it has a mutation written, `ok` is what comes of it. -/
  | advance (call : Nat) (ok : Bool) (now : Int64)
  /-- A restart. -/
  | reload

namespace BatchSystem

variable (ext : BatchExternal)

def start (guardrails : BatchGuardrails) (replayRateLimit : Nat) : BatchSystem :=
  ⟨guardrails, .new replayRateLimit, [], [], [], []⟩

def setTask (s : BatchSystem) (call : Nat) (task : BatchTask) : BatchSystem :=
  { s with tasks := s.tasks.set call task }

def setLog (s : BatchSystem) (batchlog : BatchLog) : BatchSystem := { s with batchlog }

def logWrite (s : BatchSystem) (write : WriteCall) : BatchSystem :=
  { s with writes := s.writes ++ [write] }

def newEntry (batchType : BatchType) (mutations : List CoordinatedMutation) (id : Uuid)
    (now : Int64) : BatchEntry :=
  ⟨id, batchType, mutations, now, 1⟩

def executeBatch (s : BatchSystem) (batchType : BatchType) (mutations : List CoordinatedMutation)
    (id : Uuid) (now : Int64) : BatchSystem :=
  match s.guardrails.validateBatch mutations batchType with
  | .error _ => { s with tasks := s.tasks ++ [.ended] }
  | .ok () =>
    if batchType = .logged then
      { s with
        tasks := s.tasks ++ [.storing (newEntry batchType mutations id now)]
        made := newEntry batchType mutations id now :: s.made }
    else { s with tasks := s.tasks ++ [.executing none mutations 0] }

/-- Takes the lease, unless a replay is in progress. -/
def replayBatchlog (s : BatchSystem) (order : List Uuid) (now : Int64) (maxAge : Nat) :
    BatchSystem :=
  if s.batchlog.replayInProgress then { s with tasks := s.tasks ++ [.ended] }
  else
    { s with
      batchlog := { s.batchlog with replayInProgress := true }
      tasks := s.tasks ++ [.replaying (s.batchlog.expiredEntries order now maxAge) ⟨0, 0, 0⟩] }

/-- A call goes on to its next pause. -/
def advance (s : BatchSystem) (call : Nat) (task : BatchTask) (ok : Bool) (now : Int64) :
    BatchSystem :=
  match task with
  | .storing entry =>
    { (s.setLog (s.batchlog.persistEntry ext entry)).setTask call (.persisted entry) with
      stored := entry :: s.stored }
  | .persisted entry =>
    (s.setLog (s.batchlog.insertEntry entry)).setTask call
      (.executing (some entry.id) entry.mutations 0)
  | .executing batchId mutations next =>
    match mutations[next]? with
    | some mutation =>
      (s.logWrite ⟨call, batchId, next, mutation, ok⟩).setTask call
        -- the entry stays for a replay if the write failed
        (if ok then .executing batchId mutations (next + 1) else .ended)
    | none =>
      match batchId with
      | some id =>
        (s.setLog (s.batchlog.removeEntry id)).setTask call
          (.removing id (s.batchlog.entries.contains id))
      | none => s.setTask call .ended
  | .removing id present =>
    (if present then s.setLog (s.batchlog.removePersistedEntry id) else s).setTask call .ended
  | .replaying [] _ =>
    (s.setLog { s.batchlog with replayInProgress := false }).setTask call .ended
  | .replaying (entry :: expired) counts =>
    if counts.replayed + counts.failed ≥ s.batchlog.replayRateLimit ∨
        s.batchlog.backsOff entry now then
      s.setTask call
        (.replaying expired { counts with skippedRateLimit := counts.skippedRateLimit + 1 })
    else s.setTask call (.replayWriting entry 0 true expired counts)
  | .replayWriting entry next allOk expired counts =>
    match entry.mutations[next]? with
    | some mutation =>
      (s.logWrite ⟨call, some entry.id, next, mutation, ok⟩).setTask call
        (.replayWriting entry (next + 1) (allOk && ok) expired counts)
    | none =>
      if allOk then
        (s.setLog (s.batchlog.removeEntry entry.id)).setTask call
          (.replayRemoving entry (s.batchlog.entries.contains entry.id) expired counts)
      else
        (s.setLog (s.batchlog.incrementRetry entry.id)).setTask call
          (.replaying expired { counts with failed := counts.failed + 1 })
  | .replayRemoving entry present expired counts =>
    let log := if present then s.batchlog.removePersistedEntry entry.id else s.batchlog
    (s.setLog (log.clearRetry entry.id)).setTask call
      (.replaying expired { counts with replayed := counts.replayed + 1 })
  | .ended => s

def reload (s : BatchSystem) : BatchSystem :=
  { s with
    batchlog := s.batchlog.withPersistenceDir ext
    tasks := s.tasks.map fun _ => .ended }

def step (s : BatchSystem) : BatchStep → BatchSystem
  | .executeBatch batchType mutations id now => s.executeBatch batchType mutations id now
  | .replayBatchlog order now maxAge => s.replayBatchlog order now maxAge
  | .advance call ok now =>
    match s.tasks[call]? with
    | some task => s.advance ext call task ok now
    | none => s
  | .reload => s.reload ext

def run (s : BatchSystem) (steps : List BatchStep) : BatchSystem := steps.foldl (step ext) s

/-- The identifiers that were drawn are distinct, as random ones are. -/
def DistinctIds (s : BatchSystem) : Prop := (s.made.map BatchEntry.id).Nodup

def Persists (s : BatchSystem) : Prop := ∀ entry ∈ s.made, ∃ data, ext.toVec entry = some data

end BatchSystem

/-- In one execution or replay, every mutation of the batch was written. -/
def BatchEntry.Applied (entry : BatchEntry) (writes : List WriteCall) : Prop :=
  ∃ call, ∀ i mutation, entry.mutations[i]? = some mutation →
    (⟨call, some entry.id, i, mutation, true⟩ : WriteCall) ∈ writes

/-- The entry is in the batch log, or is about to be put there, and a restart finds it. -/
def BatchEntry.Kept (ext : BatchExternal) (entry : BatchEntry) (s : BatchSystem) : Prop :=
  (s.batchlog.entries[entry.id]? = some entry ∨ .persisted entry ∈ s.tasks) ∧
    (s.batchlog.withPersistenceDir ext).entries[entry.id]? = some entry

end CassandraVerified.Coordinator
