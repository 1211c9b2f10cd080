import CassandraVerified.Lib.MachineInt
import CassandraVerified.Lib.TreeMap

/-!
# Counters

`counter.rs`: a counter is a shard for each node, and each node only ever adds to its own. Merging
keeps the shard with the higher clock. Clocks and counts wrap around, as `i64` does in a release
build.
-/

namespace CassandraVerified.Storage

open Std (ExtTreeMap)

abbrev NodeId := BitVec 128

/-- One node's contribution. Its `node_id` is the key it is stored under. -/
@[ext] structure CounterShard where
  /-- Goes up by one with each update by the node. -/
  clock : Int64
  /-- What the node has added up so far. -/
  count : Int64
deriving DecidableEq, Repr

/-- The shards of a counter by node. -/
structure CounterContext where
  shards : ExtTreeMap NodeId CounterShard := ∅

namespace CounterContext

def new : CounterContext := {}

def shard (c : CounterContext) (node : NodeId) : Option CounterShard := c.shards[node]?

/-- The value of the counter. -/
def total (c : CounterContext) : Int64 := ((TreeMap.values c.shards).map CounterShard.count).sum

/-- Adds to the shard of `node`, which starts at zero. -/
def applyLocal (c : CounterContext) (node : NodeId) (delta : Int64) : CounterContext :=
  ⟨c.shards.alter node fun s =>
    some ⟨(s.getD ⟨0, 0⟩).clock + 1, (s.getD ⟨0, 0⟩).count + delta⟩⟩

def mergeShard (shards : ExtTreeMap NodeId CounterShard) (other : NodeId × CounterShard) :
    ExtTreeMap NodeId CounterShard :=
  match shards[other.1]? with
  | some s =>
    if other.2.clock > s.clock then shards.insert other.1 other.2
    else if other.2.clock = s.clock ∧ other.2.count > s.count then shards.insert other.1 other.2
    else shards
  | none => shards.insert other.1 other.2

def merge (c other : CounterContext) : CounterContext :=
  ⟨other.shards.toList.foldl mergeShard c.shards⟩

/-- The counts of the other nodes, summed up. -/
def remoteSum (c : CounterContext) (localNode : NodeId) : Int64 :=
  ((c.shards.toList.filter fun e => e.1 ≠ localNode).map fun e => e.2.count).sum

/-- The highest clock among the other nodes. -/
def remoteMaxClock (c : CounterContext) (localNode : NodeId) : Int64 :=
  ((c.shards.toList.filter fun e => e.1 ≠ localNode).map fun e => e.2.clock).max?.getD 0

/-- Folds the shards of all other nodes into the one of `localNode`. -/
def cleanup (c : CounterContext) (localNode : NodeId) : CounterContext :=
  let kept := c.shards.filter fun id _ => id = localNode
  if c.remoteSum localNode ≠ 0 ∨ localNode ∉ kept then
    let s := kept[localNode]?.getD ⟨0, 0⟩
    ⟨kept.insert localNode
      ⟨max s.clock (c.remoteMaxClock localNode) + 1, s.count + c.remoteSum localNode⟩⟩
  else ⟨kept⟩

end CounterContext

/-- Who holds a context: a node its own, and anyone else a copy, also one on its way. -/
inductive Holder where
  | node (id : NodeId)
  | copy (n : Nat)
deriving DecidableEq

/-- An increment at a node, or a merge of one context into another. -/
inductive CounterStep where
  | apply (node : NodeId) (delta : Int64)
  | merge (into source : Holder)

namespace CounterStep

/-- A node applies deltas to its own shard of its own context only. -/
def run (contexts : Holder → CounterContext) : CounterStep → Holder → CounterContext
  | apply node delta =>
    Function.update contexts (.node node) ((contexts (.node node)).applyLocal node delta)
  | merge into source =>
    Function.update contexts into ((contexts into).merge (contexts source))

def runAll (steps : List CounterStep) : Holder → CounterContext := steps.foldl run fun _ => .new

def deltas (steps : List CounterStep) : List Int64 := steps.filterMap fun
    | apply _ delta => some delta
    | merge _ _ => none

end CounterStep

end CassandraVerified.Storage
