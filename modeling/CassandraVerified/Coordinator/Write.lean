import CassandraVerified.Coordinator.Consistency
import CassandraVerified.Coordinator.Hints

/-!
# Coordinated writes

`WriteCoordinator` of `write.rs` on its synchronous path: checks, the plan of live and dead
replicas, a hint for each dead replica, and the count of live replicas as acknowledgements.
-/

namespace CassandraVerified.Coordinator

open Storage (Bytes)

variable {E : Type}

/-- The kinds of writes that errors name. -/
inductive WriteType where
  | simple
  | batch
  | unloggedBatch
  | counter
  | view
  | cas
  | batchLog
deriving Repr, DecidableEq

/-- What a successful write returns. -/
structure WriteResult (E : Type) where
  acksReceived : Nat
  acksRequired : Nat
  contactedReplicas : List E
  hintsStored : Nat
deriving Repr, DecidableEq

/-- Why a write fails. -/
inductive WriteError (E : Type) where
  | timeout (cl : ConsistencyLevel) (writeType : WriteType) (required received blockFor : Nat)
  | unavailable (cl : ConsistencyLevel) (required alive : Nat)
  | writeFailure (cl : ConsistencyLevel) (writeType : WriteType) (required received blockFor : Nat)
      (numFailures : Nat) (failureMap : List (E × Nat))
  | overloaded
  | isBootstrapping
  | truncateInProgress
  | mutationTooLarge (size limit : Nat)
  | internal (message : String)
deriving Repr, DecidableEq

/-- What a coordinator sees: the replicas of a partition key, by the ring, the replication strategy
and the snitch, and the endpoints known to be live. -/
structure ClusterView (E : Type) where
  replicasFor : Bytes → List E
  isLive : E → Bool

/-- The coordinator of writes. -/
structure WriteCoordinator (E : Type) where
  cluster : ClusterView E
  localEndpoint : E
  isBootstrapping : Bool
  /-- `guardrails.max_mutation_size`. -/
  maxMutationSize : Nat
  /-- Permits of `write_semaphore` that are not taken. -/
  availablePermits : Nat
  truncatingTables : List String

/-- Who is to be written to, and how many have to answer. -/
structure WritePlan (E : Type) where
  replicas : List E
  liveReplicas : List E
  deadReplicas : List E
  localIsReplica : Bool
  blockFor : Nat
  cl : ConsistencyLevel

def ConsistencyLevel.isSerial : ConsistencyLevel → Bool
  | serial | localSerial => true
  | _ => false

def CellMutation.estimatedSize (cell : CellMutation) : Nat :=
  cell.column.utf8ByteSize + (cell.value.map List.length).getD 0 + 16

def CoordinatedMutation.estimatedSize (mutation : CoordinatedMutation) : Nat :=
  mutation.keyspace.utf8ByteSize + mutation.table.utf8ByteSize + mutation.partitionKey.length + 8 +
    (mutation.rows.map fun row =>
      row.clusteringKey.length + 2 + (row.cells.map CellMutation.estimatedSize).sum).sum +
    (mutation.staticCells.map CellMutation.estimatedSize).sum

def writeTypeForMutation (mutation : CoordinatedMutation) : WriteType :=
  match mutation.kind with
  | .standard => .simple
  | .counter => .counter
  | .view => .view

namespace WriteCoordinator

/-- Rejects a write while bootstrapping, when the write semaphore is taken, or when the table is
being truncated. -/
def checkPreconditions (c : WriteCoordinator E) (mutation : CoordinatedMutation) :
    Except (WriteError E) Unit :=
  if c.isBootstrapping then .error .isBootstrapping
  else if c.availablePermits = 0 then .error .overloaded
  else if c.truncatingTables.contains (mutation.keyspace ++ "." ++ mutation.table) then
    .error .truncateInProgress
  else .ok ()

def checkGuardrails (c : WriteCoordinator E) (mutation : CoordinatedMutation) :
    Except (WriteError E) Unit :=
  if mutation.estimatedSize > c.maxMutationSize then
    .error (.mutationTooLarge mutation.estimatedSize c.maxMutationSize)
  else .ok ()

/-- Fails if too few replicas are live. -/
def computeWritePlan [DecidableEq E] (c : WriteCoordinator E) (mutation : CoordinatedMutation)
    (cl : ConsistencyLevel) : Except (WriteError E) (WritePlan E) :=
  let replicas := c.cluster.replicasFor mutation.partitionKey
  if replicas.length = 0 then .error (.unavailable cl 1 0)
  else
    let required := cl.blockFor replicas.length
    let liveReplicas := replicas.filter c.cluster.isLive
    let deadReplicas := replicas.filter (! c.cluster.isLive ·)
    if cl ≠ .any ∧ liveReplicas.length < required then
      .error (.unavailable cl required liveReplicas.length)
    else
      .ok {
        replicas, liveReplicas, deadReplicas
        localIsReplica := replicas.contains c.localEndpoint
        blockFor := required
        cl }

def completeWritePlan (mutation : CoordinatedMutation) (plan : WritePlan E)
    (acksReceived hintsStored : Nat) (contactedReplicas : List E) :
    Except (WriteError E) (WriteResult E) :=
  let satisfied : Bool :=
    if plan.cl = .any then acksReceived + hintsStored > 0 else acksReceived ≥ plan.blockFor
  if satisfied then .ok ⟨acksReceived, plan.blockFor, contactedReplicas, hintsStored⟩
  else
    .error (.timeout plan.cl (writeTypeForMutation mutation) plan.blockFor acksReceived
      plan.blockFor)

variable [DecidableEq E] (ext : HintExternal E) (clock : Nat → HintClock)

/-- Stores a hint for each dead replica; `clock i` is the clock at the hint with number `i`. -/
def storeHints (mutation : CoordinatedMutation) : Nat → List E → HintStore E → HintStore E
  | _, [], store => store
  | i, dead :: rest, store =>
    storeHints mutation (i + 1) rest (store.storeHint ext (clock i) dead mutation).1

def coordinateWrite (c : WriteCoordinator E) (store : HintStore E) (mutation : CoordinatedMutation)
    (cl : ConsistencyLevel) : HintStore E × Except (WriteError E) (WriteResult E) :=
  match c.checkPreconditions mutation with
  | .error e => (store, .error e)
  | .ok () =>
    if cl.isSerial then
      (store, .error (.internal "Serial consistency levels require CAS path"))
    else
      match c.checkGuardrails mutation with
      | .error e => (store, .error e)
      | .ok () =>
        match c.computeWritePlan mutation cl with
        | .error e => (store, .error e)
        | .ok plan =>
          -- what `store_hint` returns is not looked at
          (storeHints ext clock mutation 0 plan.deadReplicas store,
            completeWritePlan mutation plan plan.liveReplicas.length plan.deadReplicas.length
              plan.replicas)

end WriteCoordinator

section

variable [DecidableEq E] (ext : HintExternal E) (clock : Nat → HintClock)

/-- The hint was stored by one of the calls of `store_hint` for the dead replicas. -/
def StoredFor (mutation : CoordinatedMutation) (hint : Hint E) : Nat → List E → HintStore E → Prop
  | _, [], _ => False
  | i, dead :: rest, store =>
    ((store.storeHint ext (clock i) dead mutation).2 = true ∧
      hint = store.newHint (clock i) dead mutation) ∨
    StoredFor mutation hint (i + 1) rest (store.storeHint ext (clock i) dead mutation).1

/-- At some time from its creation on, a drain returns the hint if delivery is not paused. -/
def HintStore.CanDrain (s : HintStore E) (hint : Hint E) : Prop :=
  ∃ now ≥ hint.createdAt, hint ∈ (s.resume.drainHints ext now hint.target).2

/-- If the write is accepted, a live replica was counted, or a hint was stored and can be
drained. -/
def HeldSomewhere (c : WriteCoordinator E) (store : HintStore E) (mutation : CoordinatedMutation)
    (cl : ConsistencyLevel) : Prop :=
  ∀ result, (c.coordinateWrite ext clock store mutation cl).2 = .ok result →
    0 < result.acksReceived ∨ ∃ hint, StoredFor ext clock mutation hint 0
          ((c.cluster.replicasFor mutation.partitionKey).filter (! c.cluster.isLive ·)) store ∧
        (c.coordinateWrite ext clock store mutation cl).1.CanDrain ext hint

/-- The write passes all checks and has a replica, and no replica is live. -/
structure OnlyDead (c : WriteCoordinator E) (mutation : CoordinatedMutation) : Prop where
  preconditions : c.checkPreconditions mutation = .ok ()
  guardrails : c.checkGuardrails mutation = .ok ()
  replica : c.cluster.replicasFor mutation.partitionKey ≠ []
  dead : ∀ replica ∈ c.cluster.replicasFor mutation.partitionKey, c.cluster.isLive replica = false

/-- The store takes one more hint. -/
structure HintStore.Admits (s : HintStore E) : Prop where
  enabled : s.config.enabled = true
  room : s.totalHints < s.config.maxTotalHints

end

end CassandraVerified.Coordinator
