import CassandraVerified.Paxos.System

/-!
# What a compare-and-set promises its caller

A mutation may be proposed in several rounds: by its own call, and by rounds that find it accepted
and take it over. Whose mutation a round proposes is told by the trace, so that two calls with the
same bytes are not confused.

Messages name the keyspace and the table, but a replica finds its Paxos state by the partition key
alone.
-/

namespace CassandraVerified.Paxos

/-- The round of a ballot proposed the mutation of call `i`. -/
inductive Carries (trace : List (Nat × Event)) (i : Nat) : Ballot → Prop where
  | own {proposal} (h : (i, .proposed proposal none) ∈ trace) : Carries trace i proposal.ballot
  | takenOver {j proposal ballot} (h : (j, .proposed proposal (some ballot)) ∈ trace)
    (hcarries : Carries trace i ballot) : Carries trace i proposal.ballot

/-- The mutation of call `i` was committed in the round of a ballot. -/
def CommittedIn (trace : List (Nat × Event)) (i : Nat) (ballot : Ballot) : Prop :=
  Carries trace i ballot ∧ ∃ j replica proposal, (j, .applied replica proposal) ∈ trace ∧
    proposal.ballot = ballot

/-- The mutation of a call that returns success is committed in exactly one round, and that of a
call whose condition is not met in none. -/
def ExactOutcomes (s : System) : Prop :=
  ∀ i, ((i, .returned .success) ∈ s.trace → ∃! ballot, CommittedIn s.trace i ballot) ∧
    ∀ row, (i, .returned (.conditionNotMet row)) ∈ s.trace → ¬∃ ballot, CommittedIn s.trace i ballot

def System.Aborted (s : System) (i : Nat) : Prop :=
  ∃ attempts, s.phases i = .returned (.contentionAborted attempts)

/-- If the step is a prepare at a replica with an accepted proposal that is not committed there,
then the call whose mutation it is has given up. -/
def Undisturbed (calls : Nat → CasCall) (s : System) (step : Nat × Input) : Prop :=
  ∀ attempts ballot promises r proposal, s.phases step.1 = .preparing attempts ballot promises →
    (calls step.1).coordinator.replicas[promises.length]? = some r →
    ((s.replicas r).state (calls step.1).partitionKey).accepted = some proposal →
    ∀ i, Carries s.trace i proposal.ballot → s.Aborted i

namespace CasCall

def SameTable (call call' : CasCall) : Prop :=
  call.keyspace = call'.keyspace ∧ call.table = call'.table

instance (call call' : CasCall) : Decidable (call.SameTable call') :=
  inferInstanceAs (Decidable (_ ∧ _))

def SameTarget (call call' : CasCall) : Prop :=
  call.SameTable call' ∧ call.partitionKey = call'.partitionKey

end CasCall

/-- The promises that call `i` received, in order. -/
def received (trace : List (Nat × Event)) (i : Nat) : List PaxosPromise := trace.filterMap fun e =>
    match e.2 with
    | .promised _ promise => if e.1 = i then some promise else none
    | _ => none

/-- A proposal of call `i` is the mutation of a call with the same target. -/
def FromSameTarget (calls : Nat → CasCall) (trace : List (Nat × Event)) (i : Nat)
    (proposal : Proposal) : Prop :=
  ∃ j, (calls j).SameTarget (calls i) ∧ Carries trace j proposal.ballot ∧
    (calls j).mutation = proposal.mutation

/-- Calls propose and commit mutations of calls with the same target only, and receive the promises
of the run without the calls for other tables. -/
structure Isolated (calls : Nat → CasCall) (steps : List (Nat × Input)) : Prop where
  proposed : ∀ i proposal adopted,
    (i, .proposed proposal adopted) ∈ (System.run calls steps).trace →
      FromSameTarget calls (System.run calls steps).trace i proposal
  committed : ∀ i replica proposal,
    (i, .applied replica proposal) ∈ (System.run calls steps).trace →
      FromSameTarget calls (System.run calls steps).trace i proposal
  received : ∀ i, received (System.run calls steps).trace i = received (System.run calls
      (steps.filter fun step => (calls step.1).SameTable (calls i))).trace i

/-- Calls of the run with the same partition key are for the same table. -/
def KeysOfOneTable (calls : Nat → CasCall) (steps : List (Nat × Input)) : Prop :=
  ∀ step ∈ steps, ∀ step' ∈ steps, (calls step.1).partitionKey = (calls step'.1).partitionKey →
      (calls step.1).SameTable (calls step'.1)

end CassandraVerified.Paxos
