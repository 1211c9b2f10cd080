import CassandraVerified.Paxos.System

/-!
# The order of ballots

The invariants documented in `paxos/state.rs`, along the calls that a replica gets for a partition,
and what a round takes over when commits are reported to it.
-/

namespace CassandraVerified.Paxos

/-- The calls on the state of a partition. -/
inductive PaxosCall where
  | prepare (ballot : Ballot)
  | propose (proposal : Proposal)
  | commit (proposal : Proposal)
deriving Repr, DecidableEq

namespace PaxosState

def apply (s : PaxosState) : PaxosCall → PaxosState
  | .prepare ballot => (s.prepare ballot).2
  | .propose proposal => (s.propose proposal).2
  | .commit proposal => s.commit proposal

def run (calls : List PaxosCall) : PaxosState := calls.foldl apply new

/-- `promised >= accepted > committed`, as far as they are there. -/
structure Ordered (s : PaxosState) : Prop where
  accepted_le : ∀ a ∈ s.accepted, a.ballot ≤ s.promised
  committed_le : ∀ c ∈ s.committed, c.ballot ≤ s.promised
  committed_lt : ∀ a ∈ s.accepted, ∀ c ∈ s.committed, c.ballot < a.ballot

/-- No ballot of `s'` is lower than that of `s`. -/
structure Advances (s s' : PaxosState) : Prop where
  promised : s.promised ≤ s'.promised
  accepted : ∀ a ∈ s.accepted, ∀ a' ∈ s'.accepted, a.ballot ≤ a'.ballot
  committed : ∀ c ∈ s.committed, ∃ c' ∈ s'.committed, c.ballot ≤ c'.ballot

/-- At any time, and from any time on. -/
def KeepsOrder (calls : List PaxosCall) : Prop := ∀ earlier later, earlier ++ later <+: calls →
    (run (earlier ++ later)).Ordered ∧ (run earlier).Advances (run (earlier ++ later))

/-- A commit is for a ballot that is not above the promise, and a ballot is not accepted when it is
committed already. -/
def Expects (s : PaxosState) : PaxosCall → Prop
  | .prepare _ => True
  | .propose proposal => ∀ c ∈ s.committed, c.ballot = proposal.ballot → c.ballot < s.promised
  | .commit proposal => proposal.ballot ≤ s.promised

def ExpectsAll (calls : List PaxosCall) : Prop :=
  ∀ earlier call, earlier ++ [call] <+: calls → (run earlier).Expects call

end PaxosState

namespace CasCall

/-- The ballots of the commits that the promises report. -/
def reported (promises : List PaxosPromise) : List Ballot :=
  promises.filterMap fun p => p.mostRecentCommit.map (·.ballot)

/-- The proposal that a round takes over is newer than every commit reported to it. -/
def AdoptsNewer (call : CasCall) (attempts : Nat) (ballot : Ballot)
    (promises : List PaxosPromise) : Prop :=
  ∀ proposal adopted, .proposed proposal (some adopted) ∈ (call.decide attempts ballot promises).2 →
    ∀ c ∈ reported promises, c < adopted

/-- There is no quorum, nothing is in progress, or something in progress is newer than every commit
that is reported. -/
def NotOvertaken (call : CasCall) (promises : List PaxosPromise) : Prop :=
  promises.countP (·.promised) < call.coordinator.quorumSize ∨
    (∀ x ∈ promises, x.inProgress = none) ∨
    ∃ x ∈ promises, ∃ p ∈ x.inProgress, ∀ c ∈ reported promises, c < p.ballot

end CasCall

/-- If the step decides about promises, then no commit has overtaken what they report. -/
def DecidesInOrder (calls : Nat → CasCall) (s : System) (step : Nat × Input) : Prop :=
  ∀ attempts ballot promises, s.phases step.1 = .preparing attempts ballot promises →
    (calls step.1).coordinator.replicas[promises.length]? = none →
      (calls step.1).NotOvertaken promises

/-- The round of a ballot took over the value of another round. -/
def TakesOver (trace : List (Nat × Event)) (adopted ballot : Ballot) : Prop :=
  ∃ i proposal, (i, .proposed proposal (some adopted)) ∈ trace ∧ proposal.ballot = ballot

/-- The value of the round of a ballot is that of the other round, or was first proposed with a
greater ballot than that. -/
def NotOlder (trace : List (Nat × Event)) (other ballot : Ballot) : Prop :=
  ∃ origin, Relation.ReflTransGen (TakesOver trace) origin ballot ∧
    (origin = other ∨ other < origin ∧
      ∃ i proposal, (i, .proposed proposal none) ∈ trace ∧ proposal.ballot = origin)

/-- No replica replaces a value that it has committed by an older one. -/
def KeepsCommits (calls : Nat → CasCall) (steps : List (Nat × Input)) : Prop :=
  ∀ earlier, earlier <+: steps → ∀ r partitionKey c c',
    (((System.run calls earlier).replicas r).state partitionKey).committed = some c →
    (((System.run calls steps).replicas r).state partitionKey).committed = some c' →
      NotOlder (System.run calls steps).trace c.ballot c'.ballot

end CassandraVerified.Paxos
