import CassandraVerified.Lib.MachineInt

/-!
# Tokens and token ranges

`token.rs`: positions on the ring and ranges of them. `Partitioner::split` of `partitioner.rs` cuts
a range into pieces of about the same number of tokens.
-/

namespace CassandraVerified.Cluster

abbrev Token := Int64

def Token.minimum : Token := Int64.minValue

/-- A range that does not include its start. If the start is not below the end, it wraps around. -/
structure TokenRange where
  start : Token
  stop : Token
deriving Repr, DecidableEq

namespace TokenRange

def fullRing : TokenRange := ⟨Token.minimum, Token.minimum⟩

def wrapsAround (range : TokenRange) : Bool := range.start ≥ range.stop && range != fullRing

def contains (range : TokenRange) (token : Token) : Bool :=
  if range.wrapsAround then token > range.start || token ≤ range.stop
  else if range = fullRing then true
  else token > range.start && token ≤ range.stop

end TokenRange

/-- The boundaries of the pieces, with the start and the end of the range. The products are `i128`,
which is wide enough for every vector that fits into memory. -/
def Partitioner.split (start stop : Token) (pieces : Nat) : List Token :=
  if pieces = 0 then [start, stop]
  else
    let s := start.toInt
    -- Where the range wraps around, its end is beyond the maximum.
    let e := if stop ≤ start then stop.toInt + 2 ^ 64 else stop.toInt
    start :: (List.range' 1 (pieces - 1)).map
      (fun i : Nat => Int64.ofInt (s + ((e - s) * i).tdiv pieces)) ++ [stop]

namespace TokenRange

def between (boundaries : List Token) : List TokenRange :=
  boundaries.zipWith TokenRange.mk boundaries.tail

/-- No part is empty, and every token of the range is in one of them. -/
structure PartitionedInto (range : TokenRange) (parts : List TokenRange) : Prop where
  nonempty : ∀ part ∈ parts, ∃ token, part.contains token
  disjoint : parts.Pairwise fun a b => ∀ token, ¬(a.contains token ∧ b.contains token)
  covers : ∀ token, range.contains token ↔ ∃ part ∈ parts, part.contains token

end TokenRange

end CassandraVerified.Cluster
