import Mathlib
import CassandraVerified.Cluster.Token

/-!
# Asymmetric repair

`asymmetric.rs`: the differences between pairs of replicas, by range, and a plan of sync tasks that
is made from them.

Endpoints are of any type. They are ordered by a key, the text of their address. A hash set is a list
without duplicates.
-/

namespace CassandraVerified.Repair

open Cluster (TokenRange)

variable {E K C : Type} [DecidableEq E] [LinearOrder K]

/-- The ranges on which two replicas differ. -/
structure DiffResult (E : Type) where
  endpointA : E
  endpointB : E
  mismatchedRanges : List (Cluster.Token × Cluster.Token)
deriving Repr, DecidableEq

/-- Ranges to be streamed from one replica to another. -/
structure SyncTaskDescriptor (E : Type) where
  source : E
  target : E
  ranges : List (Cluster.Token × Cluster.Token)
  keyspace : String
  table : String
deriving Repr, DecidableEq

/-- Unordered pair of replicas that disagree for one or more token ranges. -/
structure EndpointPair (E : Type) where
  left : E
  right : E
deriving Repr, DecidableEq

def EndpointPair.new (endpointKey : E → K) (a b : E) : EndpointPair E :=
  if endpointKey a ≤ endpointKey b then ⟨a, b⟩ else ⟨b, a⟩

def pushNew {α : Type} [DecidableEq α] (l : List α) (a : α) : List α :=
  if a ∈ l then l else l ++ [a]

/-- A range, and who differs on it. -/
structure RangeDifference (E : Type) where
  range : TokenRange
  endpoints : List E
  pairs : List (EndpointPair E)
deriving Repr, DecidableEq

abbrev RangeMap (E : Type) := List (RangeDifference E)

def RangeMap.addDifference (endpointKey : E → K) (range : TokenRange) (a b : E) :
    RangeMap E → RangeMap E
  | [] => [⟨range, pushNew [a] b, [EndpointPair.new endpointKey a b]⟩]
  | entry :: entries =>
    if entry.range = range then
      { entry with
        endpoints := pushNew (pushNew entry.endpoints a) b
        pairs := pushNew entry.pairs (EndpointPair.new endpointKey a b) } :: entries
    else entry :: RangeMap.addDifference endpointKey range a b entries

/-- Two replicas, and where they differ. -/
structure PairDifference (E : Type) where
  pair : EndpointPair E
  ranges : List TokenRange
deriving Repr, DecidableEq

/-- Stores pairwise Merkle differences and derives optimized sync work. -/
structure DifferenceHolder (E : Type) where
  pairRanges : List (PairDifference E) := []
  rangeMap : RangeMap E := []
deriving Repr, DecidableEq

namespace DifferenceHolder

def addPairRanges (pair : EndpointPair E) (ranges : List TokenRange) :
    List (PairDifference E) → List (PairDifference E)
  | [] => [⟨pair, ranges.foldl pushNew []⟩]
  | entry :: entries =>
    if entry.pair = pair then
      { entry with ranges := ranges.foldl pushNew entry.ranges } :: entries
    else entry :: addPairRanges pair ranges entries

def addDiff (endpointKey : E → K) (holder : DifferenceHolder E) (a b : E)
    (ranges : List TokenRange) : DifferenceHolder E where
  pairRanges := addPairRanges (EndpointPair.new endpointKey a b) ranges holder.pairRanges
  rangeMap := ranges.foldl (fun entries range =>
    RangeMap.addDifference endpointKey range a b entries) holder.rangeMap

def fromDiffs (endpointKey : E → K) (diffs : List (DiffResult E)) : DifferenceHolder E :=
  diffs.foldl (fun holder diff =>
    holder.addDiff endpointKey diff.endpointA diff.endpointB
      (diff.mismatchedRanges.map fun bounds => ⟨bounds.1, bounds.2⟩)) {}

end DifferenceHolder

def addDisagreement (counts : E → Option Nat) (e : E) : E → Option Nat :=
  Function.update counts e (some ((counts e).getD 0 + 1))

def disagreementCounts (difference : RangeDifference E) : E → Option Nat := difference.pairs.foldl
    (fun counts pair => addDisagreement (addDisagreement counts pair.left) pair.right)
    fun _ => none

def dedupNeighbours : List E → List E
  | [] => []
  | [e] => [e]
  | e :: e' :: rest =>
    if e = e' then dedupNeighbours (e' :: rest) else e :: dedupNeighbours (e' :: rest)

def sortedEndpoints (endpointKey : E → K) (endpoints : List E) : List E :=
  dedupNeighbours (endpoints.insertionSort fun a b => endpointKey a ≤ endpointKey b)

def sortedPairs (endpointKey : E → K) (pairs : List (EndpointPair E)) : List (EndpointPair E) :=
  pairs.insertionSort fun p q =>
    toLex (endpointKey p.left, endpointKey p.right) ≤ toLex (endpointKey q.left, endpointKey q.right)

def syncTask (source target : E) (range : TokenRange) (keyspace table : String) :
    SyncTaskDescriptor E where
  source
  target
  ranges := [(range.start, range.stop)]
  keyspace
  table

/-- From the replica with the fewest disagreements to those with more, or in both directions between
all pairs that disagree if no replica has more than others. -/
def syncTasks (endpointKey : E → K) (replicas : List E) (keyspace table : String)
    (difference : RangeDifference E) : List (SyncTaskDescriptor E) :=
  let count := fun e => (disagreementCounts difference e).getD 0
  let candidates := sortedEndpoints endpointKey replicas
  match (candidates.map count).min? with
  | none => []
  | some minCount =>
    match candidates.find? fun e => count e = minCount with
    | none => []
    | some source =>
      let targets := candidates.filter fun e => count e > minCount
      if targets = [] then
        (sortedPairs endpointKey difference.pairs).flatMap fun pair =>
          [syncTask pair.left pair.right difference.range keyspace table,
            syncTask pair.right pair.left difference.range keyspace table]
      else
        (targets.insertionSort fun a b => endpointKey a ≤ endpointKey b).map fun target =>
          syncTask source target difference.range keyspace table

def createAsymmetricSyncPlan (endpointKey : E → K) (holder : DifferenceHolder E)
    (replicas : List E) (keyspace table : String) : List (SyncTaskDescriptor E) :=
  holder.rangeMap.flatMap (syncTasks endpointKey replicas keyspace table)

/-- The differences between the contents of the replicas. -/
def Records (diffs : List (DiffResult E)) (replicas : List E) (content : E → TokenRange → C) :
    Prop :=
  ∀ a b range, (∃ diff ∈ diffs, (diff.endpointA = a ∧ diff.endpointB = b ∨
        diff.endpointA = b ∧ diff.endpointB = a) ∧
      (range.start, range.stop) ∈ diff.mismatchedRanges) ↔
    a ∈ replicas ∧ b ∈ replicas ∧ content a range ≠ content b range

/-- Executes the tasks: the source's content of a range, as it was before, is merged into the
target. -/
def execute [SemilatticeSup C] (content : E → TokenRange → C)
    (tasks : List (SyncTaskDescriptor E)) : E → TokenRange → C :=
  tasks.foldl (fun now task e range =>
    if e = task.target ∧ (range.start, range.stop) ∈ task.ranges then
      now e range ⊔ content task.source range
    else now e range) content

def SameContent (replicas : List E) (content : E → TokenRange → C) (range : TokenRange) : Prop :=
  ∀ a ∈ replicas, ∀ b ∈ replicas, content a range = content b range

/-- The plan leaves all replicas with the same content on every range that differed. -/
def Converges [SemilatticeSup C] (endpointKey : E → K) (diffs : List (DiffResult E))
    (replicas : List E) (content : E → TokenRange → C) (keyspace table : String) : Prop :=
  ∀ range, ¬ SameContent replicas content range →
    SameContent replicas (execute content (createAsymmetricSyncPlan endpointKey
      (DifferenceHolder.fromDiffs endpointKey diffs) replicas keyspace table)) range

/-- How many replicas have the content of this one. -/
def agreeing [DecidableEq C] (replicas : List E) (content : E → TokenRange → C)
    (range : TokenRange) (e : E) : Nat :=
  (replicas.toFinset.filter fun e' => content e' range = content e range).card

/-- Every content has as many replicas as any other, or one content has most replicas and includes
the others. -/
def Mendable [SemilatticeSup C] [DecidableEq C] (replicas : List E)
    (content : E → TokenRange → C) (range : TokenRange) : Prop :=
  (∀ a ∈ replicas, ∀ b ∈ replicas,
    agreeing replicas content range a = agreeing replicas content range b) ∨
  ∃ source ∈ replicas, ∀ e ∈ replicas, content e range ≤ content source range ∧
    (content e range ≠ content source range →
      agreeing replicas content range e < agreeing replicas content range source)

end CassandraVerified.Repair
