import CassandraVerified.Lib.Buckets
import CassandraVerified.Lib.Ring

/-!
# Merkle trees

`merkle.rs` and `validator.rs`: partitions of a token range, given by token and hash, are
distributed to the leaves of a tree of hashes; two trees are compared leaf by leaf.

A hash is 16 bytes long, so that the bytes that are fed to MD5 are a list of hashes. Arithmetic on
`i64` wraps around, as it does without overflow checks.
-/

namespace CassandraVerified.Repair

abbrev Token := Int64

/-- MD5 over a list of hashes, and the hash of zero bytes. -/
structure TreeHasher (H : Type) where
  md5 : List H → H
  zero : H

/-- The hash of the partitions of one range. -/
structure MerkleLeaf (H : Type) where
  rangeStart : Token
  rangeEnd : Token
  hash : H
  partitionCount : Nat
deriving Repr, DecidableEq

/-- A tree over a range, with the hashes of its levels. -/
structure MerkleTree (H : Type) where
  depth : Nat
  rangeStart : Token
  rangeEnd : Token
  leaves : List (MerkleLeaf H)
  /-- Levels of hashes from the leaves upwards, without the root. -/
  internal : List (List H)
  rootHash : H
deriving Repr, DecidableEq

variable {H : Type}

/-- The token is in the half-open range, which wraps around if its start is above its end. -/
def tokenInRange (tok : Token) (range : Token × Token) : Bool :=
  if range.1 ≤ range.2 then range.1 ≤ tok && tok < range.2
  else range.1 ≤ tok || tok < range.2

/-- The difference of the bounds, an `i64` that becomes a `u128`, or the width around the ring. -/
def totalWidth (range : Token × Token) : Nat :=
  if range.2 > range.1 then ((range.2 - range.1).toInt % 2 ^ 128).toNat
  else ((2 ^ 63 - 1 - range.1.toInt) + (range.2.toInt - -(2 ^ 63)) + 1).toNat

def leafWidth (range : Token × Token) (depth : Nat) : Nat := totalWidth range / 2 ^ depth

def leafRange (range : Token × Token) (depth i : Nat) : Token × Token :=
  (range.1 + Int64.ofNat (i * leafWidth range depth),
    if i = 2 ^ depth - 1 then range.2
    else range.1 + Int64.ofNat ((i + 1) * leafWidth range depth))

/-- The partitions hashed into each leaf: in a single scan, a leaf takes partitions until one is not
in its range. -/
def assign (range : Token × Token) (depth : Nat) (partitionHashes : List (Token × H)) :
    List (List (Token × H)) :=
  Buckets.scan (fun i p => tokenInRange p.1 (leafRange range depth i)) (List.range (2 ^ depth))
    partitionHashes

namespace MerkleTree

variable (hasher : TreeHasher H)

def buildLeaf (range : Token × Token) (depth i : Nat) (partitions : List (Token × H)) :
    MerkleLeaf H where
  rangeStart := (leafRange range depth i).1
  rangeEnd := (leafRange range depth i).2
  hash := hasher.md5 (partitions.map Prod.snd)
  partitionCount := partitions.length

/-- The pairs of a level, and a last single one. -/
def pairs : List H → List (List H)
  | [] => []
  | [a] => [[a]]
  | a :: b :: rest => [a, b] :: pairs rest

/-- Hashes of pairs, and of a last single one. -/
def parentLevel (level : List H) : List H := (pairs level).map hasher.md5

/-- The levels below the root, and the last level. -/
def buildLevels : Nat → List H → List (List H) × List H
  | 0, level => ([], level)
  | fuel + 1, level =>
    if level.length > 1 then
      let (internal, top) := buildLevels fuel (parentLevel hasher level)
      (level :: internal, top)
    else ([], level)

/-- Builds a tree from partition hashes sorted by token. -/
def build (range : Token × Token) (depth : Nat) (partitionHashes : List (Token × H)) :
    MerkleTree H :=
  let leaves := (assign range depth partitionHashes).mapIdx (buildLeaf hasher range depth)
  let levels := buildLevels hasher leaves.length (leaves.map MerkleLeaf.hash)
  { depth
    rangeStart := range.1
    rangeEnd := range.2
    leaves
    internal := levels.1
    rootHash :=
      match levels.2 with
      | [hash] => hash
      | _ => hasher.zero }

/-- The ranges of the leaves that differ, or `none` if the trees have different shapes (the source
panics). -/
def diff [DecidableEq H] (self other : MerkleTree H) : Option (List (Token × Token)) :=
  if self.depth ≠ other.depth ∨ self.leaves.length ≠ other.leaves.length then none
  else if self.rootHash = other.rootHash then some []
  else
    some (((self.leaves.zip other.leaves).filter fun l => l.1.hash ≠ l.2.hash).map fun l =>
      (l.1.rangeStart, l.1.rangeEnd))

end MerkleTree

def sortedInRange (hashes : List (Token × H)) (range : Token × Token) : List (Token × H) :=
  (hashes.insertionSort fun p q => p.1 ≤ q.1).filter fun p => tokenInRange p.1 range

/-- Validates partitions supplied as pairs of token and hash. -/
def validateFromHashes (hasher : TreeHasher H) (hashes : List (Token × H)) (range : Token × Token)
    (depth : Nat) : MerkleTree H :=
  MerkleTree.build hasher range depth (sortedInRange hashes range)

/-- Every partition in the range is hashed into one leaf. -/
def AssignedOnce (range : Token × Token) (depth : Nat) (hashes : List (Token × H)) : Prop :=
  ∀ p ∈ hashes, tokenInRange p.1 range = true → ∃! i : Nat, ∃ slice : List (Token × H),
      (assign range depth (sortedInRange hashes range))[i]? = some slice ∧ p ∈ slice

def LeavesCover (range : Token × Token) (depth : Nat) : Prop := ∀ t, tokenInRange t range = true →
    ∃! i, i < 2 ^ depth ∧ tokenInRange t (leafRange range depth i) = true

def DiffersAt (left right : List (Token × H)) (t : Token) : Prop :=
  ∃ hash, ¬ ((t, hash) ∈ left ↔ (t, hash) ∈ right)

/-- Both trees are sound, and their comparison gives the leaves with a token at which the lists
differ. -/
structure FindsDifferences [DecidableEq H] (hasher : TreeHasher H) (range : Token × Token)
    (depth : Nat) (left right : List (Token × H)) : Prop where
  assignedLeft : AssignedOnce range depth left
  assignedRight : AssignedOnce range depth right
  cover : LeavesCover range depth
  diff : ∃ diffs, (validateFromHashes hasher left range depth).diff
      (validateFromHashes hasher right range depth) = some diffs ∧
    ∀ r, r ∈ diffs ↔ ∃ i < 2 ^ depth, r = leafRange range depth i ∧
      ∃ t, tokenInRange t range = true ∧ tokenInRange t (leafRange range depth i) = true ∧
        DiffersAt left right t

/-- The difference of the bounds is an `i64`, or it does not matter. -/
def WidthFits (range : Token × Token) (depth : Nat) : Prop :=
  range.2 ≤ range.1 ∨ range.2.toInt - range.1.toInt < 2 ^ 63 ∨ depth = 0 ∨
    (depth = 1 ∧ range = (Int64.minValue, Int64.maxValue))

/-- A partition with a smaller token is not in a later leaf. -/
def InTokenOrder (range : Token × Token) (depth : Nat) (hashes : List (Token × H)) : Prop :=
  ∀ p ∈ hashes, ∀ q ∈ hashes, tokenInRange p.1 range = true → tokenInRange q.1 range = true →
    p.1 < q.1 → ∀ i < 2 ^ depth, ∀ j < 2 ^ depth,
      tokenInRange p.1 (leafRange range depth i) = true →
      tokenInRange q.1 (leafRange range depth j) = true → i ≤ j

def leafPartitions (range : Token × Token) (depth i : Nat) (hashes : List (Token × H)) :
    List (Token × H) :=
  (sortedInRange hashes range).filter fun p => tokenInRange p.1 (leafRange range depth i)

/-- The lists that are hashed above a level. -/
def hashedAbove (hasher : TreeHasher H) : Nat → List H → List (List H)
  | 0, _ => []
  | fuel + 1, level =>
    if level.length > 1 then
      MerkleTree.pairs level ++ hashedAbove hasher fuel (MerkleTree.parentLevel hasher level)
    else []

/-- All lists that are hashed while a tree is built. -/
def hashedLists (hasher : TreeHasher H) (range : Token × Token) (depth : Nat)
    (partitionHashes : List (Token × H)) : List (List H) :=
  let leaves := (assign range depth partitionHashes).map (·.map Prod.snd)
  leaves ++ hashedAbove hasher leaves.length (leaves.map hasher.md5)

/-- MD5 gives different hashes to different lists among those that are hashed for the two trees. -/
def NoCollision (hasher : TreeHasher H) (range : Token × Token) (depth : Nat)
    (left right : List (Token × H)) : Prop :=
  ∀ l ∈ hashedLists hasher range depth left, ∀ l' ∈ hashedLists hasher range depth right,
    hasher.md5 l = hasher.md5 l' → l = l'

/-- In each leaf, the same hashes belong to the same tokens. -/
def HashesTell (range : Token × Token) (depth : Nat) (left right : List (Token × H)) : Prop :=
  ∀ i < 2 ^ depth, (leafPartitions range depth i left).map Prod.snd =
      (leafPartitions range depth i right).map Prod.snd →
    leafPartitions range depth i left = leafPartitions range depth i right

end CassandraVerified.Repair
