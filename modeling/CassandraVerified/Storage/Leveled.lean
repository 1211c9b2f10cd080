import Mathlib

/-!
# Leveled compaction

`pick_leveled_compaction` of `compaction/lcs.rs`: which SSTables are compacted from one level into
the next. The scores of the levels are floating point numbers in the source; `F64` holds what the
choice asks of them.
-/

namespace CassandraVerified.Storage

/-- The operations on floating point numbers that the scores use. -/
structure F64 (F : Type) where
  zero : F
  one : F
  /-- The quotient of two integers, each converted first. -/
  ratio : Nat → Nat → F
  gt : F → F → Bool

/-- The settings of the strategy. -/
structure LeveledCompactionStrategy where
  sstableSizeInMb : Nat := 160
  fanoutSize : Nat := 10
  l0Threshold : Nat := 4
  maxThreshold : Nat := 32

/-- What the strategy knows of an SSTable. -/
structure LeveledSSTable where
  id : Nat
  dataSize : Nat
  level : Nat
  minKeyHash : Nat
  maxKeyHash : Nat
deriving DecidableEq, Repr

def sstableLevels (sstables : List LeveledSSTable) : Std.ExtTreeMap Nat (List LeveledSSTable) :=
  sstables.foldl (fun levels s => levels.alter s.level fun l => some (l.getD [] ++ [s])) ∅

def overlapping (lo hi : Nat) (sstables : List LeveledSSTable) : List LeveledSSTable :=
  sstables.filter fun s => s.maxKeyHash ≥ lo ∧ s.minKeyHash ≤ hi

namespace LeveledCompactionStrategy

variable {F : Type} (f : F64 F) (self : LeveledCompactionStrategy)

def maxBytesForLevel (level : Nat) : Nat :=
  let target := self.sstableSizeInMb * 1024 * 1024 % 2 ^ 64
  if level = 0 then target * self.l0Threshold % 2 ^ 64
  else target * (self.fanoutSize ^ level % 2 ^ 64) % 2 ^ 64

def levelScore (level actualBytes : Nat) : F :=
  if self.maxBytesForLevel level = 0 then f.zero
  else f.ratio actualBytes (self.maxBytesForLevel level)

/-- The level with the highest score above one; level 0 takes no part. -/
def bestLevel (levels : List (Nat × List LeveledSSTable)) : Option Nat :=
  (levels.foldl (fun (best : Option Nat × F) (level, ssts) =>
    if level = 0 then best
    else
      let score := self.levelScore f level ((ssts.map LeveledSSTable.dataSize).sum % 2 ^ 64)
      if f.gt score best.2 then (some level, score) else best) (none, f.one)).1

/-- Level 0 into level 1. The overlaps are those with the hull of the whole of level 0. -/
def pickL0 (l0 : List LeveledSSTable) (l1 : Option (List LeveledSSTable)) : List LeveledSSTable :=
  l0.take self.maxThreshold ++ overlapping ((l0.map LeveledSSTable.minKeyHash).min?.getD 0)
      ((l0.map LeveledSSTable.maxKeyHash).max?.getD (2 ^ 64 - 1)) (l1.getD [])

/-- The oldest SSTable of a level, into the next level. -/
def pickOldest (ssts : List LeveledSSTable) (next : Option (List LeveledSSTable)) :
    Option (List LeveledSSTable) :=
  (ssts.minOn? LeveledSSTable.id).map fun oldest =>
    oldest :: overlapping oldest.minKeyHash oldest.maxKeyHash (next.getD [])

/-- The level that is compacted, with the SSTables that are selected. -/
def selectLeveledCompaction (sstables : List LeveledSSTable) : Option (Nat × List LeveledSSTable) :=
  let levels := sstableLevels sstables
  match levels[0]?.filter fun l0 => self.l0Threshold ≤ l0.length with
  | some l0 => some (0, self.pickL0 l0 levels[1]?)
  | none => do
    let level ← self.bestLevel f levels.toList
    let ssts ← levels[level]?
    let group ← pickOldest ssts levels[(level + 1) % 2 ^ 32]?
    return (level, group)

def pickLeveledCompaction (sstables : List LeveledSSTable) : List (List Nat) :=
  ((self.selectLeveledCompaction f sstables).map fun e => e.2.map LeveledSSTable.id).toList

end LeveledCompactionStrategy

namespace LeveledSSTable

def Apart (a b : LeveledSSTable) : Prop := a.maxKeyHash < b.minKeyHash ∨ b.maxKeyHash < a.minKeyHash

instance (a b : LeveledSSTable) : Decidable (Apart a b) := inferInstanceAs (Decidable (_ ∨ _))

def hull (sstables : List LeveledSSTable) : Option (Nat × Nat) := do
  let lo ← (sstables.map minKeyHash).min?
  let hi ← (sstables.map maxKeyHash).max?
  return (lo, hi)

end LeveledSSTable

end CassandraVerified.Storage
