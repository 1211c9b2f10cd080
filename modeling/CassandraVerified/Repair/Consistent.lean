import Mathlib
import CassandraVerified.Cluster.Token

/-!
# Consistent repair

`consistent_coordinator.rs` and `consistent_local.rs`: the coordinator drives a two-phase commit
(prepare, repair, propose, commit), each participant keeps a local session.
-/

namespace CassandraVerified.Repair

abbrev Uuid := BitVec 128

/-- The states of a session. -/
inductive ConsistentSessionState
  | preparing
  | prepared
  | repairing
  | finalizeProposing
  | finalizePromised
  | committed
  | failed
deriving Repr, DecidableEq

instance : ToString ConsistentSessionState where
  toString
    | .preparing => "PREPARING"
    | .prepared => "PREPARED"
    | .repairing => "REPAIRING"
    | .finalizeProposing => "FINALIZE_PROPOSING"
    | .finalizePromised => "FINALIZE_PROMISED"
    | .committed => "COMMITTED"
    | .failed => "FAILED"

/-- The coordinator asks a participant to prepare. -/
structure PrepareConsistentRequest (E : Type) where
  parentId : Uuid
  keyspace : String
  tables : List String
  ranges : List (Cluster.Token × Cluster.Token)
  participants : List E
  isForced : Bool
deriving Repr, DecidableEq

/-- The answer to a prepare request. -/
structure PrepareConsistentResponse (E : Type) where
  parentId : Uuid
  endpoint : E
  success : Bool
deriving Repr, DecidableEq

/-- The answer to a finalize proposal. -/
structure FinalizePromise (E : Type) where
  parentId : Uuid
  endpoint : E
  success : Bool
deriving Repr, DecidableEq

/-- The message that commits a session. -/
structure FinalizeCommit where
  parentId : Uuid
deriving Repr, DecidableEq

/-- The message that fails a session. -/
structure FailSessionMessage where
  parentId : Uuid
deriving Repr, DecidableEq

/-- Action the coordinator should take after processing a response. -/
inductive CoordinatorAction
  | waitForMore
  | proceedToRepair
  | proceedToPropose
  | commit
  | fail (reason : String)
deriving Repr, DecidableEq

/-- A session at its coordinator. -/
structure CoordinatorSession (E : Type) where
  parentId : Uuid
  state : ConsistentSessionState
  participants : List E
  keyspace : String
  tables : List String
  ranges : List (Cluster.Token × Cluster.Token)
  prepareResponses : Finset E
  promiseResponses : Finset E

variable {E : Type} [DecidableEq E] [ToString E]

namespace CoordinatorSession

def new (parentId : Uuid) (participants : List E) (keyspace : String) (tables : List String)
    (ranges : List (Cluster.Token × Cluster.Token)) : CoordinatorSession E where
  parentId
  state := .preparing
  participants
  keyspace
  tables
  ranges
  prepareResponses := ∅
  promiseResponses := ∅

/-- The messages that open a session. -/
def prepare (self : CoordinatorSession E) : List (E × PrepareConsistentRequest E) :=
  self.participants.map fun e =>
    (e, ⟨self.parentId, self.keyspace, self.tables, self.ranges, self.participants, false⟩)

def handlePrepareResponse (self : CoordinatorSession E) (resp : PrepareConsistentResponse E) :
    CoordinatorSession E × CoordinatorAction :=
  if self.state ≠ .preparing then
    (self, .fail ("Unexpected prepare response in state " ++ toString self.state))
  else if resp.success = false then
    ({ self with state := .failed },
      .fail ("Participant " ++ toString resp.endpoint ++ " failed to prepare"))
  else
    let self := { self with prepareResponses := insert resp.endpoint self.prepareResponses }
    if self.prepareResponses.card = self.participants.length then
      ({ self with state := .prepared }, .proceedToRepair)
    else (self, .waitForMore)

/-- Marks the repair phase as complete and moves to finalize, whatever the state was. -/
def repairComplete (self : CoordinatorSession E) : CoordinatorSession E :=
  let self := if self.state = .prepared then { self with state := .repairing } else self
  { self with state := .finalizeProposing }

def handlePromise (self : CoordinatorSession E) (resp : FinalizePromise E) :
    CoordinatorSession E × CoordinatorAction :=
  if self.state ≠ .finalizeProposing then
    (self, .fail ("Unexpected promise in state " ++ toString self.state))
  else if resp.success = false then
    ({ self with state := .failed },
      .fail ("Participant " ++ toString resp.endpoint ++ " failed to promise"))
  else
    let self := { self with promiseResponses := insert resp.endpoint self.promiseResponses }
    if self.promiseResponses.card = self.participants.length then
      ({ self with state := .finalizePromised }, .commit)
    else (self, .waitForMore)

def commit (self : CoordinatorSession E) : CoordinatorSession E × List (E × FinalizeCommit) :=
  ({ self with state := .committed }, self.participants.map fun e => (e, ⟨self.parentId⟩))

def fail (self : CoordinatorSession E) : CoordinatorSession E × List (E × FailSessionMessage) :=
  ({ self with state := .failed }, self.participants.map fun e => (e, ⟨self.parentId⟩))

end CoordinatorSession

/-- The calls on the coordinator session. -/
inductive CoordinatorCall (E : Type)
  | handlePrepareResponse (resp : PrepareConsistentResponse E)
  | repairComplete
  | handlePromise (resp : FinalizePromise E)
  | commit
  | fail
deriving Repr, DecidableEq

namespace CoordinatorSession

def step (self : CoordinatorSession E) :
    CoordinatorCall E → CoordinatorSession E × Option CoordinatorAction
  | .handlePrepareResponse resp =>
    ((self.handlePrepareResponse resp).1, some (self.handlePrepareResponse resp).2)
  | .repairComplete => (self.repairComplete, none)
  | .handlePromise resp => ((self.handlePromise resp).1, some (self.handlePromise resp).2)
  | .commit => (self.commit.1, none)
  | .fail => (self.fail.1, none)

def run (self : CoordinatorSession E) (calls : List (CoordinatorCall E)) : CoordinatorSession E :=
  calls.foldl (fun self call => (self.step call).1) self

end CoordinatorSession

/-- A session at a participant. -/
structure LocalSession (E : Type) where
  parentId : Uuid
  state : ConsistentSessionState
  coordinator : E
  keyspace : String
  tables : List String
  ranges : List (Cluster.Token × Cluster.Token)
  createdAtMillis : UInt64
  lastUpdateMillis : UInt64
deriving Repr, DecidableEq

namespace LocalSession

def handlePrepare (req : PrepareConsistentRequest E) (coordinator thisEndpoint : E)
    (now : UInt64) : LocalSession E × PrepareConsistentResponse E :=
  ({ parentId := req.parentId
     state := .prepared
     coordinator
     keyspace := req.keyspace
     tables := req.tables
     ranges := req.ranges
     createdAtMillis := now
     lastUpdateMillis := now },
    ⟨req.parentId, thisEndpoint, true⟩)

def handleFinalizePropose (self : LocalSession E) (thisEndpoint : E) (now : UInt64) :
    LocalSession E × FinalizePromise E :=
  if self.state = .prepared ∨ self.state = .repairing then
    ({ self with state := .finalizePromised, lastUpdateMillis := now },
      ⟨self.parentId, thisEndpoint, true⟩)
  else (self, ⟨self.parentId, thisEndpoint, false⟩)

def handleCommit (self : LocalSession E) (now : UInt64) : LocalSession E × Except String Unit :=
  if self.state ≠ .finalizePromised then
    (self, .error ("Cannot commit from state " ++ toString self.state))
  else ({ self with state := .committed, lastUpdateMillis := now }, .ok ())

def handleFail (self : LocalSession E) (now : UInt64) : LocalSession E :=
  { self with state := .failed, lastUpdateMillis := now }

/-- Mark as repairing (after prepare, before finalize). -/
def setRepairing (self : LocalSession E) (now : UInt64) : LocalSession E :=
  if self.state = .prepared then { self with state := .repairing, lastUpdateMillis := now }
  else self

end LocalSession

/-- The calls on the session of a participant. -/
inductive LocalCall (E : Type)
  | handleFinalizePropose (thisEndpoint : E) (now : UInt64)
  | handleCommit (now : UInt64)
  | handleFail (now : UInt64)
  | setRepairing (now : UInt64)
deriving Repr, DecidableEq

namespace LocalSession

def step (self : LocalSession E) : LocalCall E → LocalSession E
  | .handleFinalizePropose thisEndpoint now => (self.handleFinalizePropose thisEndpoint now).1
  | .handleCommit now => (self.handleCommit now).1
  | .handleFail now => self.handleFail now
  | .setRepairing now => self.setRepairing now

def run (self : LocalSession E) (calls : List (LocalCall E)) : LocalSession E :=
  calls.foldl step self

end LocalSession

/-- The endpoint answered prepare and finalize successfully. -/
def Answered (calls : List (CoordinatorCall E)) (e : E) : Prop :=
  (∃ resp, .handlePrepareResponse resp ∈ calls ∧ resp.endpoint = e ∧ resp.success = true) ∧
  ∃ resp, .handlePromise resp ∈ calls ∧ resp.endpoint = e ∧ resp.success = true

/-- In a run, commit is only returned if every participant has answered, and the session has not
failed before. -/
def CoordinatorSession.CommitsAtomically (self : CoordinatorSession E)
    (calls : List (CoordinatorCall E)) : Prop :=
  ∀ before call after, calls = before ++ call :: after →
    ((self.run before).step call).2 = some .commit →
      (∀ e ∈ self.participants, Answered (before ++ [call]) e) ∧
      ∀ earlier, earlier <+: before → (self.run earlier).state ≠ .failed

/-- In a run, a committed session does not fail later, and a failed one is not committed later. -/
def LocalSession.StaysDecided (self : LocalSession E) (calls : List (LocalCall E)) : Prop :=
  ∀ before between, before ++ between <+: calls →
    ¬ ((self.run before).state = .committed ∧ (self.run (before ++ between)).state = .failed) ∧
    ¬ ((self.run before).state = .failed ∧ (self.run (before ++ between)).state = .committed)

namespace CoordinatorSession

/-- Counted responses come from participants, and the later phases are entered only after the first
has ended well. -/
def Expects (self : CoordinatorSession E) : CoordinatorCall E → Prop
  | .handlePrepareResponse resp =>
    self.state = .preparing → resp.success = true → resp.endpoint ∈ self.participants
  | .handlePromise resp =>
    self.state = .finalizeProposing → resp.success = true → resp.endpoint ∈ self.participants
  | .repairComplete => self.state ≠ .preparing ∧ self.state ≠ .failed
  | .commit => self.state ≠ .preparing ∧ self.state ≠ .failed
  | .fail => True

def Orderly (self : CoordinatorSession E) (calls : List (CoordinatorCall E)) : Prop :=
  ∀ before call after, calls = before ++ call :: after → (self.run before).Expects call

end CoordinatorSession

/-- A committed session is not told to fail. -/
def LocalSession.Orderly (self : LocalSession E) (calls : List (LocalCall E)) : Prop :=
  ∀ before now after, calls = before ++ .handleFail now :: after →
    (self.run before).state ≠ .committed

end CassandraVerified.Repair
