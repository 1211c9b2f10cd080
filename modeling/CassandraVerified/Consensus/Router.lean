import CassandraVerified.Consensus.Accord
import CassandraVerified.Paxos.System

/-!
# The consensus router

`consensus/router.rs` and `migration.rs`: a conditional write goes to Paxos or to Accord, by the
mode of its table and, while the table migrates, by the state of its key.
-/

namespace CassandraVerified.Consensus

open Std (ExtTreeMap)
open Storage (Bytes)
open Paxos (Uuid CasCall CasPhase CasResult Input)
open Accord (AccordError AccordConfig AccordService TxnPhase)

/-- Which protocol a table uses. -/
inductive TransactionalMode where
  | off
  | paxos
  | accord
  | mixed
deriving Repr, DecidableEq

/-- Which protocol owns a key. -/
inductive KeyMigrationState where
  | paxos
  | migrating
  | accord
deriving Repr, DecidableEq

/-- The migration states of the keys of a table. -/
structure TableMigrationState where
  tableId : Uuid
  keyStates : ExtTreeMap Bytes KeyMigrationState

namespace TableMigrationState

def new (tableId : Uuid) : TableMigrationState := ⟨tableId, ∅⟩

def getKeyState (s : TableMigrationState) (key : Bytes) : KeyMigrationState :=
  s.keyStates[key]?.getD .paxos

end TableMigrationState

def rotateLeft (x : UInt64) (n : UInt64) : UInt64 := x <<< n ||| x >>> (64 - n)

def hashStep (hashes : UInt64 × UInt64) (byte : UInt8) : UInt64 × UInt64 :=
  ((hashes.1 ^^^ byte.toUInt64) * 0x00000100000001b3,
    rotateLeft (hashes.2 ^^^ rotateLeft byte.toUInt64 1) 5 * 0x517cc1b727220a95)

def tableIdForName (keyspace table : String) : Uuid :=
  let bytes := keyspace.toUTF8.toList ++ [46] ++ table.toUTF8.toList
  let hashes := bytes.foldl hashStep (0xcbf29ce484222325, 0x9e3779b97f4a7c15)
  .ofNat 128 (hashes.1.toNat * 2 ^ 64 + hashes.2.toNat)

/-- The arguments of `execute_cas`, with the migration states that the router then has. -/
structure RouterCall where
  mode : TransactionalMode
  migrationStates : Uuid → Option TableMigrationState
  cas : CasCall

namespace RouterCall

/-- Paxos where no migration state is registered. -/
def getKeyMigrationState (call : RouterCall) (tableId : Uuid) (partitionKey : Bytes) :
    KeyMigrationState :=
  match call.migrationStates tableId with
  | some tableState => tableState.getKeyState partitionKey
  | none => .paxos

end RouterCall

/-- Why a routed call fails. -/
inductive RouterError where
  /-- `Transactions are disabled for this table (TransactionalMode::Off)` -/
  | transactionsDisabled
  | accord (error : AccordError)
deriving Repr, DecidableEq

/-- Where a routed call stands. -/
inductive RouterPhase where
  | start
  | paxos
  | accord (phase : TxnPhase)
  | returned (result : Except RouterError CasResult)

namespace RouterCall

/-- `execute_cas_mixed`, up to the protocol that it chooses. -/
def executeCasMixed (call : RouterCall) (tableId : Uuid) : RouterPhase :=
  match call.getKeyMigrationState tableId call.cas.partitionKey with
  | .paxos | .migrating => .paxos
  | .accord => .accord .start

/-- `execute_cas`, up to the protocol that it chooses. -/
def executeCas (call : RouterCall) : RouterPhase :=
  match call.mode with
  | .off => .returned (.error .transactionsDisabled)
  | .paxos => .paxos
  | .accord => .accord .start
  | .mixed => call.executeCasMixed (tableIdForName call.cas.keyspace call.cas.table)

end RouterCall

/-- The two protocols, where every call is, and the rows it has seen. -/
structure RouterSystem where
  paxos : Paxos.System
  accord : AccordService
  phases : Nat → RouterPhase
  /-- For each call, the rows at its reads; for an operation of Accord, what it would have read when
  its mutation was applied. -/
  rows : Nat → List (Option Bytes)

namespace RouterSystem

def new (config : AccordConfig) (nodeId : Uuid) : RouterSystem :=
  ⟨.new, .new config nodeId, fun _ => .start, fun _ => []⟩

/-- What the router makes of the answer of Paxos. -/
def paxosPhase : CasPhase → RouterPhase
  | .returned result => .returned (.ok result)
  | _ => .paxos

/-- What the router makes of the answer of Accord: a transaction that went through is a success. -/
def accordPhase : TxnPhase → RouterPhase
  | .returned (.ok _) => .returned (.ok .success)
  | .returned (.error e) => .returned (.error (.accord e))
  | phase => .accord phase

/-- The row that a step of Paxos reads. -/
def rowRead (input : Input) : CasPhase → List (Option Bytes)
  | .reading _ _ => [input.row]
  | _ => []

/-- The row at the time at which a step of Accord applies a mutation. -/
def rowApplied (input : Input) : TxnPhase → List (Option Bytes)
  | .committed _ => [input.row]
  | _ => []

/-- One step of a call, by the protocol it was routed to. -/
def step (calls : Nat → RouterCall) (s : RouterSystem) (step : Nat × Input) : RouterSystem :=
  let i := step.1
  match s.phases i with
  | .start => { s with phases := Function.update s.phases i (calls i).executeCas }
  | .paxos =>
    let paxos := s.paxos.step (fun j => (calls j).cas) step
    { s with
      paxos := paxos
      phases := Function.update s.phases i (paxosPhase (paxos.phases i))
      rows := Function.update s.rows i (s.rows i ++ rowRead step.2 (s.paxos.phases i)) }
  | .accord phase =>
    let (phase', accord) := s.accord.executeTransaction (calls i).cas.keyspace
      [(calls i).cas.mutation] step.2.clock phase
    { s with
      accord := accord
      phases := Function.update s.phases i (accordPhase phase')
      rows := Function.update s.rows i (s.rows i ++ rowApplied step.2 phase) }
  | .returned _ => s

def run (calls : Nat → RouterCall) (config : AccordConfig) (nodeId : Uuid)
    (steps : List (Nat × Input)) : RouterSystem :=
  steps.foldl (step calls) (new config nodeId)

/-- Success is returned only if the condition held for the last row, and the mutation proposed only
if it held for some row. -/
structure Guarded (calls : Nat → RouterCall) (i : Nat) (s : RouterSystem) : Prop where
  success : s.phases i = .returned (.ok .success) →
    ∃ row, (s.rows i).getLast? = some row ∧ (calls i).cas.condition row = true
  proposed : ∀ p, (i, .proposed p none) ∈ s.paxos.trace →
    ∃ row ∈ s.rows i, (calls i).cas.condition row = true

end RouterSystem

def RouterCall.ToAccord (call : RouterCall) : Prop := call.mode = .accord ∨ call.mode = .mixed ∧
      call.getKeyMigrationState (tableIdForName call.cas.keyspace call.cas.table)
        call.cas.partitionKey = .accord

end CassandraVerified.Consensus
