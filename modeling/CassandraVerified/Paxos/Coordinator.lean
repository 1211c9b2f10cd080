import CassandraVerified.Paxos.State

/-!
# Replicas and the coordinator of a compare-and-set

`paxos/messages.rs` and `paxos/coordinator.rs`. `execute_cas` is a state machine, `CasPhase`: a step
is what a call does between two accesses to shared state, that is one message to one replica, the
read of the current row, or the decision after all replicas have answered. What the clock and the
read return is `Input`.
-/

namespace CassandraVerified.Paxos

open Std (ExtTreeMap)
open Storage (Bytes)

/-- The first message of a round. -/
structure PaxosPrepare where
  partitionKey : Bytes
  keyspace : String
  table : String
  ballot : Ballot
deriving Repr, DecidableEq

/-- The answer to a prepare. -/
structure PaxosPromise where
  promised : Bool
  ballot : Ballot
  inProgress : Option Proposal
  mostRecentCommit : Option Proposal
deriving Repr, DecidableEq

/-- The second message of a round. -/
structure PaxosPropose where
  partitionKey : Bytes
  keyspace : String
  table : String
  proposal : Proposal
deriving Repr, DecidableEq

/-- The answer to a propose. -/
structure PaxosAccept where
  accepted : Bool
  ballot : Ballot
deriving Repr, DecidableEq

/-- The last message of a round. -/
structure PaxosCommit where
  partitionKey : Bytes
  keyspace : String
  table : String
  proposal : Proposal
deriving Repr, DecidableEq

/-- A replica, with a state for each partition. -/
structure PaxosReplica where
  states : ExtTreeMap Bytes PaxosState

namespace PaxosReplica

def new : PaxosReplica := ⟨∅⟩

def state (r : PaxosReplica) (partitionKey : Bytes) : PaxosState :=
  r.states[partitionKey]?.getD .new

def setState (r : PaxosReplica) (partitionKey : Bytes) (s : PaxosState) : PaxosReplica :=
  ⟨r.states.insert partitionKey s⟩

def handlePrepare (r : PaxosReplica) (msg : PaxosPrepare) : PaxosPromise × PaxosReplica :=
  let (resp, s) := (r.state msg.partitionKey).prepare msg.ballot
  (⟨resp.promised, resp.ballot, resp.accepted, resp.committed⟩, r.setState msg.partitionKey s)

def handlePropose (r : PaxosReplica) (msg : PaxosPropose) : PaxosAccept × PaxosReplica :=
  let (resp, s) := (r.state msg.partitionKey).propose msg.proposal
  (⟨resp.accepted, resp.ballot⟩, r.setState msg.partitionKey s)

def handleCommit (r : PaxosReplica) (msg : PaxosCommit) : PaxosReplica :=
  r.setState msg.partitionKey ((r.state msg.partitionKey).commit msg.proposal)

end PaxosReplica

/-- What a compare-and-set call returns. -/
inductive CasResult where
  | success
  | conditionNotMet (currentRow : Bytes)
  | contentionAborted (attempts : Nat)
deriving Repr, DecidableEq

/-- Replicas are numbered; a coordinator contacts them in the order of its list. -/
structure PaxosCoordinator where
  nodeId : Uuid
  replicas : List Nat
  quorumSize : Nat
  maxContentionRetries : Nat

/-- The arguments of `execute_cas`, with the coordinator that executes it. -/
structure CasCall where
  coordinator : PaxosCoordinator
  keyspace : String
  table : String
  partitionKey : Bytes
  mutation : Bytes
  /-- `condition_fn` -/
  condition : Option Bytes → Bool

/-- What a step learns from outside: the time and the current row. -/
structure Input where
  clock : Int64
  row : Option Bytes

/-- Where a compare-and-set call stands. -/
inductive CasPhase where
  /-- At the head of the loop, after some attempts. -/
  | idle (attempts : Nat)
  /-- The replicas that have answered a prepare are those before the end of `promises`. -/
  | preparing (attempts : Nat) (ballot : Ballot) (promises : List PaxosPromise)
  /-- No proposal was in progress; the current row is to be read. -/
  | reading (attempts : Nat) (ballot : Ballot)
  | proposing (attempts : Nat) (proposal : Proposal) (adopted : Bool) (accepts : List PaxosAccept)
  /-- The commit was sent to the first `sent` replicas. -/
  | committing (attempts : Nat) (proposal : Proposal) (adopted : Bool) (sent : Nat)
  | returned (result : CasResult)
deriving Repr, DecidableEq

/-- What the trace records of a call. -/
inductive Event where
  | started (ballot : Ballot)
  | promised (replica : Nat) (promise : PaxosPromise)
  /-- A quorum has promised, and all promises are in. -/
  | collected (ballot : Ballot)
  /-- The proposal is the call's own, or that of an earlier ballot. -/
  | proposed (proposal : Proposal) (adopted : Option Ballot)
  | accepted (replica : Nat) (proposal : Proposal)
  | applied (replica : Nat) (proposal : Proposal)
  | returned (result : CasResult)
deriving Repr, DecidableEq

/-- The last of the proposals with the greatest ballot. -/
def maxByBallot (proposals : List Proposal) : Option Proposal :=
  proposals.foldl (fun best p => some (best.elim p fun q => if q.ballot ≤ p.ballot then p else q))
    none

/-- The proposal that a round has to take over. -/
def inProgress (promises : List PaxosPromise) : Option Proposal :=
  maxByBallot (promises.filterMap (·.inProgress))

namespace CasCall

/-- The first attempt takes the time, later ones a little more. -/
def ballot (call : CasCall) (attempts : Nat) (clock : Int64) : Ballot :=
  ⟨if attempts = 1 then clock else clock + Int64.ofNat attempts, call.coordinator.nodeId⟩

def prepareMsg (call : CasCall) (ballot : Ballot) : PaxosPrepare :=
  ⟨call.partitionKey, call.keyspace, call.table, ballot⟩

def proposeMsg (call : CasCall) (proposal : Proposal) : PaxosPropose :=
  ⟨call.partitionKey, call.keyspace, call.table, proposal⟩

def commitMsg (call : CasCall) (proposal : Proposal) : PaxosCommit :=
  ⟨call.partitionKey, call.keyspace, call.table, proposal⟩

/-- After the last promise: the round is given up, takes over a proposal or reads the row. -/
def decide (call : CasCall) (attempts : Nat) (ballot : Ballot) (promises : List PaxosPromise) :
    CasPhase × List Event :=
  if promises.countP (·.promised) < call.coordinator.quorumSize then (.idle attempts, [])
  else
    match inProgress promises with
    | some adopted =>
      (.proposing attempts ⟨ballot, adopted.mutation⟩ true [],
        [.collected ballot, .proposed ⟨ballot, adopted.mutation⟩ (some adopted.ballot)])
    | none => (.reading attempts ballot, [.collected ballot])

def evaluate (call : CasCall) (attempts : Nat) (ballot : Ballot) (row : Option Bytes) :
    CasPhase × List Event :=
  if call.condition row then
    (.proposing attempts ⟨ballot, call.mutation⟩ false [], [.proposed ⟨ballot, call.mutation⟩ none])
  else
    (.returned (.conditionNotMet (row.getD [])), [.returned (.conditionNotMet (row.getD []))])

/-- One step of `execute_cas`. -/
def executeCas (call : CasCall) (input : Input) (replicas : Nat → PaxosReplica) :
    CasPhase → CasPhase × (Nat → PaxosReplica) × List Event
  | .idle attempts =>
    let max := call.coordinator.maxContentionRetries
    if attempts < max then
      let ballot := call.ballot (attempts + 1) input.clock
      (.preparing (attempts + 1) ballot [], replicas, [.started ballot])
    else
      (.returned (.contentionAborted max), replicas, [.returned (.contentionAborted max)])
  | .preparing attempts ballot promises =>
    match call.coordinator.replicas[promises.length]? with
    | some r =>
      let (promise, replica) := (replicas r).handlePrepare (call.prepareMsg ballot)
      (.preparing attempts ballot (promises ++ [promise]), Function.update replicas r replica,
        [.promised r promise])
    | none =>
      let (phase, events) := call.decide attempts ballot promises
      (phase, replicas, events)
  | .reading attempts ballot =>
    let (phase, events) := call.evaluate attempts ballot input.row
    (phase, replicas, events)
  | .proposing attempts proposal adopted accepts =>
    match call.coordinator.replicas[accepts.length]? with
    | some r =>
      let (accept, replica) := (replicas r).handlePropose (call.proposeMsg proposal)
      (.proposing attempts proposal adopted (accepts ++ [accept]),
        Function.update replicas r replica,
        if accept.accepted then [.accepted r proposal] else [])
    | none =>
      if accepts.countP (·.accepted) < call.coordinator.quorumSize then
        (.idle attempts, replicas, [])
      else
        (.committing attempts proposal adopted 0, replicas, [])
  | .committing attempts proposal adopted sent =>
    match call.coordinator.replicas[sent]? with
    | some r =>
      (.committing attempts proposal adopted (sent + 1),
        Function.update replicas r ((replicas r).handleCommit (call.commitMsg proposal)),
        [.applied r proposal])
    | none =>
      if adopted then (.idle attempts, replicas, [])
      else (.returned .success, replicas, [.returned .success])
  | .returned result => (.returned result, replicas, [])

end CasCall

end CassandraVerified.Paxos
