import CassandraVerified.Storage.History

/-!
# Replica convergence

Replicas receive the same writes, but in different orders and some of them more than once. `TieFree`
is the condition under which `PartitionData` then shows the same live rows: of cells that share the
newest timestamp and are all values or all tombstones, `Cell::merge_with` keeps the one that came
first, and so does `set_tombstone`.
-/

namespace CassandraVerified.Storage

open Lww (IsTop)

/-- The sequence `s` delivers each of the writes `ops`, any number of times and in any order. -/
def Delivers (s ops : List Write) : Prop := ∀ w, w ∈ s ↔ w ∈ ops

/-- Replicas that received all of `ops` show the same live rows at every time. -/
def Converges (ops : List Write) : Prop := ∀ s s', Delivers s ops → Delivers s' ops →
    ∀ now, SameLiveRows (PartitionData.ofWrites s) (PartitionData.ofWrites s') now

/-- Row `ck` is written and never marked as deleted. -/
def Kept (ops : List Write) (ck : Bytes) : Prop :=
  (viewOf ops).touched ck = true ∧ (viewOf ops).marked ck = false

def HasNewer (ops : List Write) (ck : Bytes) (ts : Int64) : Prop :=
  ∃ col, ∃ c ∈ cellsOf ops ck col, ts < c.timestamp

/-- A newest partition tombstone hides row `ck` at every time there is. -/
def HiddenForever (ops : List Write) (ck : Bytes) : Prop :=
  ∃ t, IsTop Prod.fst (tombstonesOf ops) t ∧ t.2 = Int32.minValue ∧ ¬ HasNewer ops ck t.1

/-- No two writes tie in a way that a reader can see. -/
structure TieFree (ops : List Write) : Prop where
  /-- The newest cell of each column of a row that is ever shown is unique. -/
  cells : ∀ ck, Kept ops ck → HiddenForever ops ck ∨
    ∀ col c c', IsTop Cell.rank (cellsOf ops ck col) c →
      IsTop Cell.rank (cellsOf ops ck col) c' → c = c'
  /-- The newest partition tombstones agree on the deletion time, unless they hide no row. -/
  tombstones : ∀ t t', IsTop Prod.fst (tombstonesOf ops) t → IsTop Prod.fst (tombstonesOf ops) t' →
    t.2 = t'.2 ∨ ∀ ck, Kept ops ck → HasNewer ops ck t.1

end CassandraVerified.Storage
