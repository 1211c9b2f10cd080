import CassandraVerified.Paxos.State

/-!
# Accord transactions

`types.rs`, `command_store.rs`, `journal.rs`, `executor.rs` and `service.rs` of `cassandra-accord`.
`execute_transaction` is a state machine, `TxnPhase`, since other transactions run between its
phases: each is an operation of the command store with its journal entry.
-/

namespace CassandraVerified.Accord

open Storage (Bytes)
open Paxos (Uuid)

/-- The identifier of a transaction. -/
structure TxnId where
  timestamp : Int64
  nodeId : Uuid
  sequence : UInt32
deriving Repr, DecidableEq

/-- A transaction. -/
structure Txn where
  keys : List Bytes
  mutation : Bytes
  keyspace : String
deriving Repr, DecidableEq

def intersects (keys other : List Bytes) : Bool := keys.any fun left => other.any (left = ·)

/-- How far a transaction has come. -/
inductive CommandStatus where
  | preAccepted
  | accepted
  | committed
  | applied
  | invalidated
deriving Repr, DecidableEq

/-- Why a step of a transaction fails. -/
inductive AccordError where
  | disabled
  | invalidTransition (old new : CommandStatus)
  /-- `Internal`, with the text `Unknown txn: ` and the id. -/
  | unknownTxn (txnId : TxnId)
deriving Repr, DecidableEq

/-- A transaction in the store of commands. -/
structure CommandEntry where
  txnId : TxnId
  status : CommandStatus
  executeAt : Int64
  txn : Txn
deriving Repr, DecidableEq

/-- One entry for a transaction, in the order in which they came. -/
structure CommandStore where
  commands : List CommandEntry
deriving Repr, DecidableEq

namespace CommandStore

def new : CommandStore := ⟨[]⟩

def get (s : CommandStore) (txnId : TxnId) : Option CommandEntry :=
  s.commands.find? (·.txnId = txnId)

def insert (s : CommandStore) (entry : CommandEntry) : CommandStore :=
  ⟨s.commands.filter (·.txnId ≠ entry.txnId) ++ [entry]⟩

def preAccept (s : CommandStore) (txnId : TxnId) (txn : Txn) (executeAt : Int64) : CommandStore :=
  s.insert ⟨txnId, .preAccepted, executeAt, txn⟩

/-- Takes a command to a status that it may reach from the statuses `allowed`. -/
def transition (s : CommandStore) (txnId : TxnId) (allowed : CommandStatus → Bool)
    (status : CommandStatus) (executeAt : CommandEntry → Int64) : Except AccordError CommandStore :=
  match s.get txnId with
  | none => .error (.unknownTxn txnId)
  | some entry =>
    if allowed entry.status then
      .ok (s.insert { entry with status := status, executeAt := executeAt entry })
    else .error (.invalidTransition entry.status status)

def accept (s : CommandStore) (txnId : TxnId) (executeAt : Int64) :
    Except AccordError CommandStore :=
  s.transition txnId (· = .preAccepted) .accepted fun _ => executeAt

/-- The execution time after those of the commands in flight on the same keys. -/
def resolveConflicts (s : CommandStore) (current : CommandEntry) (proposed : Int64) : Int64 :=
  s.commands.foldl (fun resolved other =>
    if other.txnId = current.txnId ∨ ¬intersects current.txn.keys other.txn.keys then resolved
    else if other.status ∈ [.preAccepted, .accepted, .committed] ∧ other.executeAt ≥ resolved then
      other.executeAt + 1
    else resolved) proposed

def acceptResolvingConflicts (s : CommandStore) (txnId : TxnId) (proposed : Int64) :
    Except AccordError (CommandStore × Int64) :=
  match s.get txnId with
  | none => .error (.unknownTxn txnId)
  | some current =>
    if current.status ≠ .preAccepted then .error (.invalidTransition current.status .accepted)
    else
      let resolved := s.resolveConflicts current proposed
      (s.accept txnId resolved).map (·, resolved)

def commit (s : CommandStore) (txnId : TxnId) (executeAt : Int64) :
    Except AccordError CommandStore :=
  s.transition txnId (· ∈ [.preAccepted, .accepted]) .committed fun _ => executeAt

def apply (s : CommandStore) (txnId : TxnId) : Except AccordError CommandStore :=
  s.transition txnId (· = .committed) .applied CommandEntry.executeAt

end CommandStore

/-- A change of status in the journal. -/
structure JournalEntry where
  txnId : TxnId
  status : CommandStatus
  executeAt : Int64
  sequence : Nat
deriving Repr, DecidableEq

/-- The journal of the changes of status. -/
structure AccordJournal where
  entries : List JournalEntry
  nextSequence : Nat
  enabled : Bool
deriving Repr, DecidableEq

def AccordJournal.write (j : AccordJournal) (txnId : TxnId) (status : CommandStatus)
    (executeAt : Int64) : AccordJournal :=
  if j.enabled then
    { j with
      entries := j.entries ++ [⟨txnId, status, executeAt, j.nextSequence⟩]
      nextSequence := j.nextSequence + 1 }
  else j

/-- Both switches of the service. -/
structure AccordConfig where
  enabled : Bool := false
  journalingEnabled : Bool := true
deriving Repr, DecidableEq

/-- The service of one node. -/
structure AccordService where
  config : AccordConfig
  nodeId : Uuid
  commandStore : CommandStore
  journal : AccordJournal
deriving Repr, DecidableEq

/-- Where `execute` stands. -/
inductive TxnPhase where
  | start
  /-- It has its id. -/
  | named (txnId : TxnId)
  | preAccepted (txnId : TxnId) (executeAt : Int64)
  | accepted (txnId : TxnId) (executeAt : Int64)
  | committed (txnId : TxnId)
  | returned (result : Except AccordError Unit)

namespace AccordService

def new (config : AccordConfig) (nodeId : Uuid) : AccordService :=
  ⟨config, nodeId, .new, ⟨[], 0, config.journalingEnabled⟩⟩

def keysFromMutations (mutations : List Bytes) : List Bytes :=
  let keys := mutations.filter (· ≠ [])
  if keys = [] then [[]] else keys

/-- The result of an operation on the command store; an error ends the transaction. -/
def advance (a : AccordService) (result : Except AccordError CommandStore) (txnId : TxnId)
    (status : CommandStatus) (executeAt : Int64) (next : TxnPhase) : TxnPhase × AccordService :=
  match result with
  | .error e => (.returned (.error e), a)
  | .ok store =>
    (next, { a with commandStore := store, journal := a.journal.write txnId status executeAt })

def execute (a : AccordService) (txnId : TxnId) : TxnPhase × AccordService :=
  match a.commandStore.get txnId with
  | none => (.returned (.error (.unknownTxn txnId)), a)
  | some entry =>
    if entry.status ≠ .committed then
      (.returned (.error (.invalidTransition entry.status .applied)), a)
    else
      a.advance (a.commandStore.apply txnId) txnId .applied entry.executeAt (.returned (.ok ()))

/-- One step of `execute_transaction`, at the time `clock`. -/
def executeTransaction (a : AccordService) (keyspace : String) (mutations : List Bytes)
    (clock : Int64) : TxnPhase → TxnPhase × AccordService
  | .start =>
    if a.config.enabled then (.named ⟨clock, a.nodeId, 0⟩, a) else (.returned (.error .disabled), a)
  | .named txnId =>
    let txn := ⟨keysFromMutations mutations, mutations.flatten, keyspace⟩
    a.advance (.ok (a.commandStore.preAccept txnId txn clock)) txnId .preAccepted clock
      (.preAccepted txnId clock)
  | .preAccepted txnId executeAt =>
    match a.commandStore.acceptResolvingConflicts txnId executeAt with
    | .error e => (.returned (.error e), a)
    | .ok (store, resolved) =>
      a.advance (.ok store) txnId .accepted resolved (.accepted txnId resolved)
  | .accepted txnId executeAt =>
    a.advance (a.commandStore.commit txnId executeAt) txnId .committed executeAt (.committed txnId)
  | .committed txnId => a.execute txnId
  | .returned result => (.returned result, a)

end AccordService

end CassandraVerified.Accord
