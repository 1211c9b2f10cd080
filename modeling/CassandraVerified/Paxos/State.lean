import CassandraVerified.Storage.Partition

/-!
# The Paxos state of a partition

`paxos/ballot.rs` and `paxos/state.rs`. Ballots are ordered by their timestamp and then by the node
that made them.
-/

namespace CassandraVerified.Paxos

open Storage (Bytes)

abbrev Uuid := BitVec 128

/-- A ballot, ordered by its time and then by its node. -/
structure Ballot where
  timestampMicros : Int64
  nodeId : Uuid
deriving Repr, DecidableEq

namespace Ballot

def none : Ballot := ⟨0, 0⟩

def isNone (b : Ballot) : Bool := b.timestampMicros = 0 ∧ b.nodeId = 0

/-- The timestamp and, as the bytes of a UUID are compared from the first one, its number. -/
def key (b : Ballot) : Lex (Int × Nat) := toLex (b.timestampMicros.toInt, b.nodeId.toNat)

theorem key_injective : Function.Injective key := by
  rintro ⟨t, n⟩ ⟨t', n'⟩ h
  simp only [key, EmbeddingLike.apply_eq_iff_eq, Prod.mk.injEq] at h
  rw [Int64.toInt_inj.1 h.1, BitVec.eq_of_toNat_eq h.2]

instance : LinearOrder Ballot := LinearOrder.lift' key key_injective

end Ballot

/-- A value, the serialized mutation, under a ballot. -/
structure Proposal where
  ballot : Ballot
  mutation : Bytes
deriving Repr, DecidableEq

/-- The answer of a state to a prepare. -/
structure PrepareResponse where
  promised : Bool
  /-- The new promise, or the higher one that stood in its way. -/
  ballot : Ballot
  accepted : Option Proposal
  committed : Option Proposal
deriving Repr, DecidableEq

/-- The answer of a state to a propose. -/
structure ProposeResponse where
  accepted : Bool
  ballot : Ballot
deriving Repr, DecidableEq

/-- What a replica knows about a partition. -/
structure PaxosState where
  promised : Ballot
  accepted : Option Proposal
  committed : Option Proposal
deriving Repr, DecidableEq

namespace PaxosState

def new : PaxosState := ⟨.none, none, none⟩

instance : Inhabited PaxosState := ⟨new⟩

/-- A promise is given for a greater ballot, and again for the same one. The accepted proposal is
always reported. -/
def prepare (s : PaxosState) (ballot : Ballot) : PrepareResponse × PaxosState :=
  if s.promised < ballot then
    (⟨true, ballot, s.accepted, s.committed⟩, { s with promised := ballot })
  else if ballot = s.promised then
    (⟨true, ballot, s.accepted, s.committed⟩, s)
  else
    (⟨false, s.promised, s.accepted, s.committed⟩, s)

/-- A proposal is accepted unless a greater ballot was promised. -/
def propose (s : PaxosState) (proposal : Proposal) : ProposeResponse × PaxosState :=
  if s.promised ≤ proposal.ballot then
    (⟨true, proposal.ballot⟩, { s with promised := proposal.ballot, accepted := some proposal })
  else
    (⟨false, s.promised⟩, s)

/-- The newest commit is kept, and an accepted proposal that is not newer is dropped. -/
def commit (s : PaxosState) (proposal : Proposal) : PaxosState :=
  let committed :=
    if s.committed.all (·.ballot < proposal.ballot) then some proposal else s.committed
  let accepted := s.accepted.filter fun acc => ¬acc.ballot ≤ (committed.map (·.ballot)).getD .none
  { s with accepted := accepted, committed := committed }

/-- An accepted proposal is newer than the newest commit. -/
def hasInProgress (s : PaxosState) : Bool :=
  match s.accepted with
  | some accepted =>
    match s.committed with
    | some committed => committed.ballot < accepted.ballot
    | none => true
  | none => false

end PaxosState

end CassandraVerified.Paxos
