import CassandraVerified.Paxos.Coordinator

/-!
# Concurrent calls on shared replicas

Any number of calls of `execute_cas` run on the same replicas, in any interleaving of their steps.
The trace records what each step did. A round is known by its ballot.
-/

namespace CassandraVerified.Paxos

open Storage (Bytes)

/-- The replicas, where every call is, and what has happened. -/
structure System where
  replicas : Nat → PaxosReplica
  phases : Nat → CasPhase
  trace : List (Nat × Event)

namespace System

def new : System := ⟨fun _ => .new, fun _ => .idle 0, []⟩

def step (calls : Nat → CasCall) (s : System) (step : Nat × Input) : System :=
  let (phase, replicas, events) := (calls step.1).executeCas step.2 s.replicas (s.phases step.1)
  ⟨replicas, Function.update s.phases step.1 phase, s.trace ++ events.map (Prod.mk step.1)⟩

def run (calls : Nat → CasCall) (steps : List (Nat × Input)) : System :=
  steps.foldl (step calls) new

def ballots (s : System) : List Ballot := s.trace.filterMap fun e =>
    match e.2 with
    | .started ballot => some ballot
    | _ => none

def DistinctBallots (s : System) : Prop := s.ballots.Nodup

end System

/-- The condition holds of each step of the run, and of the system that it is made in. -/
def EveryStep (calls : Nat → CasCall) (condition : System → Nat × Input → Prop)
    (steps : List (Nat × Input)) : Prop :=
  ∀ before step, before ++ [step] <+: steps → condition (System.run calls before) step

def Before (trace : List (Nat × Event)) (e e' : Nat × Event) : Prop := [e, e'].Sublist trace

/-- All coordinators use the same replicas, and the quorum of each is a majority of them. -/
structure Shares (calls : Nat → CasCall) (replicas : List Nat) : Prop where
  nodup : replicas.Nodup
  perm : ∀ i, (calls i).coordinator.replicas.Perm replicas
  majority : ∀ i, replicas.length < 2 * (calls i).coordinator.quorumSize

def Quorum (replicas : List Nat) (q : Finset Nat) : Prop :=
  q ⊆ replicas.toFinset ∧ replicas.length < 2 * q.card

def AcceptedAt (calls : Nat → CasCall) (s : System) (partitionKey : Bytes) (replica : Nat)
    (proposal : Proposal) : Prop :=
  ∃ i, (calls i).partitionKey = partitionKey ∧ (i, .accepted replica proposal) ∈ s.trace

/-- The commit of a proposal was applied at a replica for a partition before a call had collected
the promises for a ballot. -/
def AppliedBefore (calls : Nat → CasCall) (s : System) (partitionKey : Bytes) (commit : Proposal)
    (i : Nat) (ballot : Ballot) : Prop :=
  ∃ j replica, (calls j).partitionKey = partitionKey ∧
    Before s.trace (j, .applied replica commit) (i, .collected ballot)

/-- If a quorum has accepted a proposal for a partition, then every proposal with a greater ballot
has its value, unless a commit that is not older was applied before that proposal's promises were
collected. -/
def Agreement (calls : Nat → CasCall) (replicas : List Nat) (s : System) : Prop :=
  ∀ partitionKey chosen q, Quorum replicas q → (∀ r ∈ q, AcceptedAt calls s partitionKey r chosen) →
    ∀ i proposal adopted, (calls i).partitionKey = partitionKey →
      (i, .proposed proposal adopted) ∈ s.trace → chosen.ballot < proposal.ballot →
      proposal.mutation = chosen.mutation ∨ ∃ commit, chosen.ballot ≤ commit.ballot ∧
          AppliedBefore calls s partitionKey commit i proposal.ballot

end CassandraVerified.Paxos
