import Mathlib

/-!
# Consistency levels

`consistency.rs`: how many replicas must answer before a coordinator returns, in all and in each
datacenter. A `HashMap` of numbers by datacenter is only summed up and checked entry by entry, so
its order does not matter.
-/

namespace CassandraVerified.Coordinator

open Std (ExtTreeMap)

/-- How many replicas have to answer. -/
inductive ConsistencyLevel where
  | one
  | two
  | three
  | quorum
  | all
  | localQuorum
  | eachQuorum
  | serial
  | localSerial
  | localOne
  | any
deriving Repr, DecidableEq

abbrev DcMap := ExtTreeMap String Nat

def DcMap.count (m : DcMap) (dc : String) : Nat := m[dc]?.getD 0

def DcMap.total (m : DcMap) : Nat := (m.toList.map Prod.snd).sum

namespace ConsistencyLevel

/-- The number of responses that the level needs of `rf` replicas. -/
def blockFor (cl : ConsistencyLevel) (rf : Nat) : Nat :=
  match cl with
  | one | localOne => 1
  | two => min 2 rf
  | three => min 3 rf
  | quorum | localQuorum | serial | localSerial => rf / 2 + 1
  | all => rf
  | any => 1
  | eachQuorum => rf / 2 + 1

def isSatisfied (cl : ConsistencyLevel) (received rf : Nat) : Bool := received ≥ cl.blockFor rf

def isDatacenterLocal : ConsistencyLevel → Bool
  | localOne | localQuorum | localSerial => true
  | _ => false

def isSatisfiedByDatacenter (cl : ConsistencyLevel) (receivedByDc dcRf : DcMap)
    (localDc : Option String) : Bool :=
  match cl with
  | eachQuorum => !dcRf.isEmpty && dcRf.toList.all fun e => receivedByDc.count e.1 ≥ e.2 / 2 + 1
  | localOne | localQuorum | localSerial =>
    match localDc with
    | none => false
    | some dc => receivedByDc.count dc ≥ cl.blockFor (dcRf.count dc)
  | _ => cl.isSatisfied receivedByDc.total dcRf.total

end ConsistencyLevel

section

variable {E : Type}

/-- The map has the number of members of `A` in each datacenter. -/
def CountsByDc (dcOf : E → String) (A : Finset E) (m : DcMap) : Prop :=
  ∀ dc, m.count dc = (A.filter (dcOf · = dc)).card

/-- The replicas of a partition, and their numbers by datacenter. -/
structure Placement (E : Type) where
  dcOf : E → String
  replicas : Finset E
  dcRf : DcMap
  counts : CountsByDc dcOf replicas dcRf

/-- Some of the replicas, with the map in which they are counted, satisfy the level. -/
structure Placement.Answers (p : Placement E) (cl : ConsistencyLevel) (localDc : Option String)
    (A : Finset E) : Prop where
  subset : A ⊆ p.replicas
  satisfied : ∃ received, CountsByDc p.dcOf A received ∧
    cl.isSatisfiedByDatacenter received p.dcRf localDc = true

/-- Pairs of a level for writes and one for reads, with the datacenter that each is local to. -/
inductive Overlapping : ConsistencyLevel → Option String → ConsistencyLevel → Option String → Prop
  | quorum (dc dc' : Option String) : Overlapping .quorum dc .quorum dc'
  | eachQuorum (dc dc' : Option String) : Overlapping .eachQuorum dc .localQuorum dc'
  | localQuorum (dc : Option String) : Overlapping .localQuorum dc .localQuorum dc
  | allOne (dc dc' : Option String) : Overlapping .all dc .one dc'
  | oneAll (dc dc' : Option String) : Overlapping .one dc .all dc'

end

end CassandraVerified.Coordinator
