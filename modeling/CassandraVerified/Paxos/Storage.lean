import CassandraVerified.Paxos.Coordinator
import CassandraVerified.Storage.Run

/-!
# Paxos state on disk

`paxos/storage.rs`: promises, accepted proposals and commits are saved as rows of `system.paxos`, by
partition key and table id. Ballots are saved as UUIDs of version 1, which have room for six bytes
of the node id. A save that fails is logged and otherwise ignored.
-/

namespace CassandraVerified.Paxos

open Storage (Bytes Cell PartitionData Mutation Store Io EngineError LogExternal contentLayer)

/-- What the crate `uuid` does with UUIDs of version 1, which are made of a number of ticks and the
last six bytes of a node and give them back. -/
class UuidV1 where
  newV1 : (ticks : UInt64) → (node : Nat) → Uuid
  getTimestamp : Uuid → Option Nat
  getNodeId : Uuid → Nat
  getTimestamp_newV1 : ∀ {ticks : UInt64} {node : Nat}, ticks.toNat < 2 ^ 60 → node < 2 ^ 48 →
    getTimestamp (newV1 ticks node) = some ticks.toNat
  getNodeId_newV1 : ∀ {ticks : UInt64} {node : Nat}, ticks.toNat < 2 ^ 60 → node < 2 ^ 48 →
    getNodeId (newV1 ticks node) = node
  newV1_ne_zero : ∀ {ticks : UInt64} {node : Nat}, ticks.toNat < 2 ^ 60 → node < 2 ^ 48 →
    newV1 ticks node ≠ 0

variable [UuidV1]

namespace Uuid

/-- The bytes of a UUID. -/
def asBytes (id : Uuid) : Bytes := Wire.beBytes 16 id.toNat

/-- The UUID of 16 bytes. -/
def fromSlice (bytes : Bytes) : Uuid := BitVec.ofNat 128 (Wire.beNat bytes)

end Uuid

/-- Ticks of 100 ns between the start of the Gregorian calendar and the Unix epoch. -/
def ticksBetweenEpochs : Nat := 122192928000000000

/-- `i64 as u64`, and the arithmetic of a release build. -/
def ballotToUuid (ballot : Ballot) : Uuid :=
  if ballot.isNone then 0
  else
    UuidV1.newV1 (ballot.timestampMicros.toUInt64 * 10 + UInt64.ofNat ticksBetweenEpochs)
      (ballot.nodeId.toNat % 2 ^ 48)

def uuidToBallot (id : Uuid) : Ballot :=
  if id = 0 then .none
  else
    match UuidV1.getTimestamp id with
    | some ticks =>
      ⟨Int64.ofNat ((ticks - ticksBetweenEpochs) / 10), .ofNat 128 (UuidV1.getNodeId id)⟩
    | none => .none

/-- The writes to the system table. -/
inductive Save where
  | promise (partitionKey : Bytes) (ballot : Ballot)
  | proposal (partitionKey : Bytes) (proposal : Proposal)
  /-- With the time in seconds. -/
  | commit (partitionKey : Bytes) (proposal : Proposal) (now : Int32)
deriving Repr, DecidableEq

namespace Save

def partitionKey : Save → Bytes
  | promise k _ | proposal k _ | commit k _ _ => k

def ballot : Save → Ballot
  | promise _ b => b
  | proposal _ p | commit _ p _ => p.ballot

def valueCell (timestamp : Int64) (column : String) (value : Bytes) : Cell :=
  ⟨column, some value, timestamp, 0, none, false⟩

def clearCell (timestamp : Int64) (now : Int32) (column : String) : Cell :=
  ⟨column, none, timestamp, 0, some now, true⟩

/-- `4i32.to_be_bytes()` -/
def protocolVersion : Bytes := [0, 0, 0, 4]

/-- The cells of `save_promise`, `save_proposal` and `save_commit`, which clears what is in
progress, the promise included. -/
def cells : Save → List Cell
  | promise _ b =>
    [valueCell b.timestampMicros "in_progress_ballot" (Uuid.asBytes (ballotToUuid b))]
  | proposal _ p =>
    [valueCell p.ballot.timestampMicros "proposal_ballot" (Uuid.asBytes (ballotToUuid p.ballot)),
      valueCell p.ballot.timestampMicros "proposal" p.mutation,
      valueCell p.ballot.timestampMicros "proposal_version" protocolVersion]
  | commit _ p now =>
    [valueCell p.ballot.timestampMicros "most_recent_commit_at"
        (Uuid.asBytes (ballotToUuid p.ballot)),
      valueCell p.ballot.timestampMicros "most_recent_commit" p.mutation,
      valueCell p.ballot.timestampMicros "most_recent_commit_version" protocolVersion,
      clearCell p.ballot.timestampMicros now "in_progress_ballot",
      clearCell p.ballot.timestampMicros now "proposal_ballot",
      clearCell p.ballot.timestampMicros now "proposal"]

/-- The handlers save under the nil table id. -/
def cfId : Uuid := 0

def mutation (s : Save) : Mutation where
  keyspace := "system"
  table := "paxos"
  partitionKey := s.partitionKey
  rows := [⟨Uuid.asBytes cfId, s.cells, false, none⟩]
  timestamp := s.ballot.timestampMicros

end Save

/-- The value of a column, from the last of its cells that has one and is not a tombstone. -/
def lastValue (cells : List Cell) (column : String) (valid : Bytes → Bool) : Option Bytes :=
  (cells.filterMap fun c =>
    if c.isTombstone ∨ c.column ≠ column then none else c.value.filter valid).getLast?

/-- The state that a partition of `system.paxos` holds for a table id. -/
def loadState (partitionData : Option PartitionData) (cfId : Uuid) : PaxosState :=
  match partitionData.bind fun pd => pd.rows[Uuid.asBytes cfId]? with
  | none => .new
  | some row =>
    let uuid column := (lastValue row.cells column (·.length = 16)).map Uuid.fromSlice
    let value column := lastValue row.cells column fun _ => true
    let proposalOf ballot mutation :=
      (uuid ballot).bind fun id => (value mutation).map fun m => ⟨uuidToBallot id, m⟩
    { promised := (uuid "in_progress_ballot").elim .none uuidToBallot
      accepted := proposalOf "proposal_ballot" "proposal"
      committed := proposalOf "most_recent_commit_at" "most_recent_commit" }

/-- The messages to a replica. -/
inductive Message where
  | prepare (msg : PaxosPrepare)
  | propose (msg : PaxosPropose)
  | commit (msg : PaxosCommit)
deriving Repr, DecidableEq

namespace Message

def partitionKey : Message → Bytes
  | prepare msg => msg.partitionKey
  | propose msg => msg.partitionKey
  | commit msg => msg.partitionKey

def ballot : Message → Ballot
  | prepare msg => msg.ballot
  | propose msg => msg.proposal.ballot
  | commit msg => msg.proposal.ballot

end Message

/-- What a replica saves for a message: a promise and an accepted proposal if it gives them, and
every commit. -/
def PaxosReplica.save? (r : PaxosReplica) (msg : Message) (now : Int32) : Option Save :=
  match msg with
  | .prepare msg =>
    if (r.handlePrepare msg).1.promised then some (.promise msg.partitionKey msg.ballot) else none
  | .propose msg =>
    if (r.handlePropose msg).1.accepted then some (.proposal msg.partitionKey msg.proposal)
    else none
  | .commit msg => some (.commit msg.partitionKey msg.proposal now)

def PaxosReplica.handle (r : PaxosReplica) : Message → PaxosReplica
  | .prepare msg => (r.handlePrepare msg).2
  | .propose msg => (r.handlePropose msg).2
  | .commit msg => r.handleCommit msg

/-- A replica and its storage. -/
structure StoredReplica where
  memory : PaxosReplica
  storage : Store

namespace StoredReplica

def new (storage : Store) : StoredReplica := ⟨.new, storage⟩

/-- A message to the replica, with the result of the save. -/
def handle (ext : LogExternal) (r : StoredReplica) (msg : Message) (now : Int32) (io : Io) :
    StoredReplica × Option (Except EngineError Unit) :=
  match r.memory.save? msg now with
  | some save =>
    let (storage, result) := r.storage.applyMutation contentLayer ext save.mutation io
    (⟨r.memory.handle msg, storage⟩, some result)
  | none => (⟨r.memory.handle msg, r.storage⟩, none)

def run (ext : LogExternal) (r : StoredReplica) :
    List (Message × Int32 × Io) → StoredReplica × List (Except EngineError Unit)
  | [] => (r, [])
  | (msg, now, io) :: msgs =>
    let (r', result) := r.handle ext msg now io
    ((r'.run ext msgs).1, result.toList ++ (r'.run ext msgs).2)

def loadAllUncommitted (storage : Store) (knownKeys : List Bytes) (cfId : Uuid) :
    List (Bytes × PaxosState) :=
  knownKeys.filterMap fun key =>
    let state := loadState (storage.read "system" "paxos" key) cfId
    if state.hasInProgress then some (key, state) else none

/-- The replica after a restart: the memory is what `recover` finds in the storage. -/
def restart (r : StoredReplica) (knownKeys : List Bytes) : StoredReplica :=
  { r with
    memory := (loadAllUncommitted r.storage knownKeys Save.cfId).foldl
      (fun memory entry => memory.setState entry.1 entry.2) .new }

end StoredReplica

/-- `r'` rejects what `r` rejects, and reports what `r` has accepted and not committed. -/
structure PaxosReplica.Survives (r r' : PaxosReplica) : Prop where
  prepare : ∀ msg, (r.handlePrepare msg).1.promised = false →
    (r'.handlePrepare msg).1.promised = false
  propose : ∀ msg, (r.handlePropose msg).1.accepted = false →
    (r'.handlePropose msg).1.accepted = false
  reports : ∀ msg p, (r.state msg.partitionKey).hasInProgress = true →
    (r.handlePrepare msg).1.inProgress = some p → (r'.handlePrepare msg).1.inProgress = some p

/-- The ballot fits into a time-based UUID. -/
structure Ballot.Encodable (b : Ballot) : Prop where
  timestamp_nonneg : 0 ≤ b.timestampMicros.toInt
  ticks_lt : b.timestampMicros.toInt * 10 + ticksBetweenEpochs < 2 ^ 60
  node_lt : b.nodeId.toNat < 2 ^ 48

/-- For one partition, ballots fit, differ in their timestamps if they differ, and come with one
proposal. -/
structure Storable (msgs : List Message) : Prop where
  encodable : ∀ m ∈ msgs, m.ballot.Encodable
  ballots : ∀ m ∈ msgs, ∀ m' ∈ msgs, m.partitionKey = m'.partitionKey →
    m.ballot.timestampMicros = m'.ballot.timestampMicros → m.ballot = m'.ballot
  proposals : ∀ msg msg', .propose msg ∈ msgs → .propose msg' ∈ msgs →
    msg.partitionKey = msg'.partitionKey → msg.proposal.ballot = msg'.proposal.ballot →
    msg.proposal = msg'.proposal

/-- Nothing was promised, or a proposal is in progress and a prepare had asked for the promise that
stands. -/
def PromiseSaved (msgs : List Message) (r : PaxosReplica) (key : Bytes) : Prop :=
  (r.state key).promised = .none ∨ (r.state key).hasInProgress = true ∧
      ∃ msg, .prepare msg ∈ msgs ∧ msg.partitionKey = key ∧ msg.ballot = (r.state key).promised

end CassandraVerified.Paxos
