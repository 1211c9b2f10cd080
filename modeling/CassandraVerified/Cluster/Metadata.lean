import CassandraVerified.Cluster.Locks

/-!
# Cluster metadata

`tcm/mod.rs`: the metadata of the cluster, changed by transformations that are numbered by epochs
and logged, and its snapshots. `E` is the type of endpoints.
-/

namespace CassandraVerified.Cluster

open Std (ExtTreeMap)
open TreeMap (IterationOrder)

/-- The state of a node in the cluster. -/
inductive NodeState
  | joining
  | normal
  | leaving
  | moving
  | dead
  | left
  | replacing
deriving Repr, DecidableEq

/-- What the directory knows of a node. -/
structure NodeInfo (E : Type) where
  hostId : Uuid
  endpoint : E
  datacenter : String
  rack : String
  tokens : List Token
  state : NodeState
  loadBytes : Nat
  schemaVersion : Option Uuid
deriving Repr, DecidableEq

def NodeInfo.new {E : Type} (hostId : Uuid) (endpoint : E) (datacenter rack : String)
    (tokens : List Token) : NodeInfo E :=
  ⟨hostId, endpoint, datacenter, rack, tokens, .normal, 0, none⟩

/-- A change of the metadata. -/
inductive Transformation (E : Type)
  | register (nodeId : Uuid) (endpoint : E) (dc rack : String)
  | unregister (nodeId : Uuid)
  | assignTokens (nodeId : Uuid) (tokens : List Token)
  | updateNodeState (nodeId : Uuid) (state : NodeState)
  | schemaChange (schemaVersion : Uuid) (description : String)
  | lockRanges (operationId : Uuid) (ranges : List TokenRange)
  | unlockRanges (operationId : Uuid)
  | forceSnapshot

/-- Why a change is rejected. -/
inductive TcmError
  | nodeAlreadyRegistered (nodeId : Uuid)
  | nodeNotFound (nodeId : Uuid)
  | rangeConflict (range : TokenRange)
deriving Repr, DecidableEq

variable {E : Type} [DecidableEq E]

/-- A committed change. -/
structure MetadataLogEntry (E : Type) where
  epoch : Nat
  transformation : Transformation E
  committedBy : Uuid

/-- The log of the committed changes. -/
structure MetadataLog (E : Type) where
  entries : List (MetadataLogEntry E)
  currentEpoch : Nat

namespace MetadataLog

omit [DecidableEq E]

def new : MetadataLog E := ⟨[], 0⟩

def append (self : MetadataLog E) (transformation : Transformation E) (committedBy : Uuid) :
    Nat × MetadataLog E :=
  let newEpoch := self.currentEpoch + 1
  (newEpoch, ⟨self.entries ++ [⟨newEpoch, transformation, committedBy⟩], newEpoch⟩)

def truncateBefore (self : MetadataLog E) (epoch : Nat) : MetadataLog E :=
  { self with entries := self.entries.filter fun entry => epoch < entry.epoch }

end MetadataLog

/-- The nodes by identifier, and the identifiers by endpoint. -/
structure NodeDirectory (E : Type) where
  nodes : ExtTreeMap Uuid (NodeInfo E)
  endpointToId : E → Option Uuid

namespace NodeDirectory

def new : NodeDirectory E := ⟨∅, fun _ => none⟩

def register (self : NodeDirectory E) (info : NodeInfo E) : NodeDirectory E where
  nodes := self.nodes.insert info.hostId info
  endpointToId := Function.update self.endpointToId info.endpoint (some info.hostId)

/-- Removes a node, and its endpoint from the reverse lookup, whichever node is found there. -/
def unregister (self : NodeDirectory E) (id : Uuid) : NodeDirectory E :=
  match self.nodes[id]? with
  | some info =>
    { nodes := self.nodes.erase id
      endpointToId := Function.update self.endpointToId info.endpoint none }
  | none => self

def update (self : NodeDirectory E) (id : Uuid) (f : NodeInfo E → NodeInfo E) :
    Option (NodeDirectory E) :=
  self.nodes[id]?.map fun info => { self with nodes := self.nodes.insert id (f info) }

omit [DecidableEq E]

def getByEndpoint (self : NodeDirectory E) (ep : E) : Option (NodeInfo E) :=
  (self.endpointToId ep).bind (self.nodes[·]?)

/-- No two nodes have a common endpoint or token, and the reverse lookup finds exactly the nodes. -/
structure Consistent (d : NodeDirectory E) : Prop where
  endpoint : ∀ (id id' : Uuid) info info', d.nodes[id]? = some info →
    d.nodes[id']? = some info' → info.endpoint = info'.endpoint → id = id'
  tokens : ∀ (id id' : Uuid) info info', d.nodes[id]? = some info →
    d.nodes[id']? = some info' → (∃ token ∈ info.tokens, token ∈ info'.tokens) → id = id'
  lookup : ∀ ep info, d.getByEndpoint ep = some info ↔
    ∃ id : Uuid, d.nodes[id]? = some info ∧ info.endpoint = ep

/-- A transformation gives no node the endpoint or a token of another one. -/
def Admits (self : NodeDirectory E) : Transformation E → Prop
  | .register _ endpoint _ _ =>
    ∀ (id : Uuid) info, self.nodes[id]? = some info → info.endpoint ≠ endpoint
  | .assignTokens nodeId tokens => ∀ (id : Uuid) info, self.nodes[id]? = some info → id ≠ nodeId →
    ∀ token ∈ tokens, token ∉ info.tokens
  | _ => True

end NodeDirectory

/-- The kinds of topology operations. -/
inductive SequenceType
  | bootstrap
  | decommission
  | move
  | replace
  | rebuild
deriving Repr, DecidableEq

/-- A topology operation of several steps. -/
structure InProgressSequence where
  operationId : Uuid
  nodeId : Uuid
  operationType : SequenceType
  currentStep : Nat
  totalSteps : Nat
  startEpoch : Nat
deriving Repr, DecidableEq

/-- The transactional cluster metadata. -/
structure TcmMetadata (E : Type) where
  epoch : Nat
  directory : NodeDirectory E
  lockedRanges : LockedRanges
  inProgress : ExtTreeMap Uuid InProgressSequence
  schemaVersion : Option Uuid
  log : MetadataLog E

/-- What a snapshot keeps of the metadata. -/
structure TcmSnapshot (E : Type) where
  epoch : Nat
  nodes : List (NodeInfo E)
  schemaVersion : Option Uuid
  inProgress : List InProgressSequence

/-- The orders in which the hash maps are iterated. -/
structure Orders (E : Type) where
  locks : IterationOrder (Uuid × List TokenRange)
  nodes : IterationOrder (Uuid × NodeInfo E)
  inProgress : IterationOrder (Uuid × InProgressSequence)

namespace TcmMetadata

def new : TcmMetadata E := ⟨0, .new, .new, ∅, none, .new⟩

/-- What a transformation does to the state, before it is logged. -/
def transform (orders : Orders E) (self : TcmMetadata E) :
    Transformation E → Except TcmError (TcmMetadata E)
  | .register nodeId endpoint dc rack =>
    if self.directory.nodes[nodeId]?.isSome then .error (.nodeAlreadyRegistered nodeId)
    else .ok { self with directory := self.directory.register (.new nodeId endpoint dc rack []) }
  | .unregister nodeId => .ok { self with directory := self.directory.unregister nodeId }
  | .assignTokens nodeId tokens =>
    match self.directory.update nodeId fun info => { info with tokens, state := .normal } with
    | some directory => .ok { self with directory }
    | none => .error (.nodeNotFound nodeId)
  | .updateNodeState nodeId state =>
    match self.directory.update nodeId fun info => { info with state } with
    | some directory => .ok { self with directory }
    | none => .error (.nodeNotFound nodeId)
  | .schemaChange schemaVersion _ => .ok { self with schemaVersion := some schemaVersion }
  | .lockRanges operationId ranges =>
    match self.lockedRanges.lock orders.locks operationId ranges with
    | .ok lockedRanges => .ok { self with lockedRanges }
    | .error conflict => .error (.rangeConflict conflict)
  | .unlockRanges operationId =>
    .ok { self with lockedRanges := (self.lockedRanges.unlock operationId).2 }
  | .forceSnapshot => .ok self

def apply (orders : Orders E) (self : TcmMetadata E) (transformation : Transformation E)
    (committedBy : Uuid) : Except TcmError (Nat × TcmMetadata E) := do
  let changed ← self.transform orders transformation
  let (epoch, log) := changed.log.append transformation committedBy
  return (epoch, { changed with epoch, log })

/-- A transformation without the log, for a replay: what `apply` would reject is passed over, except
that a node is registered again. -/
def applyWithoutLogging (orders : Orders E) (self : TcmMetadata E) :
    Transformation E → Except TcmError (TcmMetadata E)
  | .register nodeId endpoint dc rack =>
    .ok { self with directory := self.directory.register (.new nodeId endpoint dc rack []) }
  | .unregister nodeId => .ok { self with directory := self.directory.unregister nodeId }
  | .assignTokens nodeId tokens =>
    .ok { self with directory := (self.directory.update nodeId fun info =>
      { info with tokens, state := .normal }).getD self.directory }
  | .updateNodeState nodeId state =>
    .ok { self with directory :=
      (self.directory.update nodeId fun info => { info with state }).getD self.directory }
  | .schemaChange schemaVersion _ => .ok { self with schemaVersion := some schemaVersion }
  | .lockRanges operationId ranges =>
    .ok { self with lockedRanges :=
      (self.lockedRanges.lock orders.locks operationId ranges).toOption.getD self.lockedRanges }
  | .unlockRanges operationId =>
    .ok { self with lockedRanges := (self.lockedRanges.unlock operationId).2 }
  | .forceSnapshot => .ok self

def replayEntry (orders : Orders E) (self : TcmMetadata E) (entry : MetadataLogEntry E) :
    Except TcmError (TcmMetadata E) := do
  let replayed ← self.applyWithoutLogging orders entry.transformation
  return { replayed with epoch := entry.epoch }

/-- The state rebuilt from a log. Its own log is empty. -/
def replayFrom (orders : Orders E) (entries : List (MetadataLogEntry E)) :
    Except TcmError (TcmMetadata E) :=
  entries.foldlM (replayEntry orders) new

omit [DecidableEq E] in
/-- A snapshot of the current state; its time is left out. -/
def snapshot (orders : Orders E) (self : TcmMetadata E) : TcmSnapshot E where
  epoch := self.epoch
  nodes := (orders.nodes.arrange self.directory.nodes.toList).map Prod.snd
  schemaVersion := self.schemaVersion
  inProgress := (orders.inProgress.arrange self.inProgress.toList).map Prod.snd

/-- The state with the sequences put under their operations. -/
def insertSequences (self : TcmMetadata E) (sequences : List InProgressSequence) : TcmMetadata E :=
  { self with
    inProgress := sequences.foldl (fun m seq => m.insert seq.operationId seq) self.inProgress }

/-- The state in a snapshot. The log entries are not restored. -/
def restoreFromSnapshot (snapshot : TcmSnapshot E) : TcmMetadata E :=
  let metadata : TcmMetadata E :=
    { new with epoch := snapshot.epoch, schemaVersion := snapshot.schemaVersion }
  let metadata := { metadata with
    directory := snapshot.nodes.foldl NodeDirectory.register metadata.directory }
  metadata.insertSequences snapshot.inProgress

omit [DecidableEq E] in
def compact (orders : Orders E) (self : TcmMetadata E) : TcmSnapshot E × TcmMetadata E :=
  (self.snapshot orders, { self with log := self.log.truncateBefore self.epoch })

/-- Applies transformations in order and returns the epochs of the accepted ones; a rejected one
leaves the state as it was. -/
def applyAll (orders : Orders E) (self : TcmMetadata E) :
    List (Transformation E × Uuid) → List Nat × TcmMetadata E
  | [] => ([], self)
  | (transformation, committedBy) :: rest =>
    match self.apply orders transformation committedBy with
    | .ok (epoch, applied) =>
      let (epochs, last) := applied.applyAll orders rest
      (epoch :: epochs, last)
    | .error _ => self.applyAll orders rest

def Accepts (orders : Orders E) (self : TcmMetadata E) : List (Transformation E × Uuid) → Prop
  | [] => True
  | (transformation, committedBy) :: rest =>
    ∃ epoch applied, self.apply orders transformation committedBy = .ok (epoch, applied) ∧
      applied.Accepts orders rest

/-- A new cluster in which some operations are in progress. -/
def started (sequences : List InProgressSequence) : TcmMetadata E := new.insertSequences sequences

/-- A restored instance and the transformations that follow the snapshot. -/
def restoredRun (orders : Orders E) (self : TcmMetadata E)
    (after : List (Transformation E × Uuid)) : List Nat × TcmMetadata E :=
  (restoreFromSnapshot (self.compact orders).1).applyAll orders after

/-- The instance that took the snapshot, and the same transformations. -/
def compactedRun (orders : Orders E) (self : TcmMetadata E)
    (after : List (Transformation E × Uuid)) : List Nat × TcmMetadata E :=
  (self.compact orders).2.applyAll orders after

/-- The restored instance ends up as the other one, and the epochs it returns are above that of the
snapshot. -/
structure Faithful (orders : Orders E) (m : TcmMetadata E)
    (after : List (Transformation E × Uuid)) : Prop where
  epoch : (m.restoredRun orders after).2.epoch = (m.compactedRun orders after).2.epoch
  directory : (m.restoredRun orders after).2.directory = (m.compactedRun orders after).2.directory
  lockedRanges :
    (m.restoredRun orders after).2.lockedRanges = (m.compactedRun orders after).2.lockedRanges
  inProgress :
    (m.restoredRun orders after).2.inProgress = (m.compactedRun orders after).2.inProgress
  schemaVersion : (m.restoredRun orders after).2.schemaVersion =
      (m.compactedRun orders after).2.schemaVersion
  epochs : ∀ epoch ∈ (m.restoredRun orders after).1, (m.compact orders).1.epoch < epoch

end TcmMetadata

end CassandraVerified.Cluster
