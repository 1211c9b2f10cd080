import CassandraVerified.Storage.Run

/-!
# Reference semantics of reads

What a read should show after a sequence of mutations: the newest cell of a column, if it is a live
value and newer than every deletion that covers its row. The model keeps no timestamp with the mark
of a deleted row, puts a range tombstone at the start of its range only, and lets a partition
tombstone hide rows rather than cells. `DeletionsAgree` says when none of this can be seen.
-/

namespace CassandraVerified.Storage

open Lww (IsTop)

section

variable (ms : List Mutation) (pk ck : Bytes) (col : String) (now : Int32)

/-- The operations of a sequence of mutations on one partition. -/
def writesFor : List Write := (ledgerOf ms).writesTo pk

def Newest (c : Cell) : Prop := IsTop Cell.timestamp (cellsOf (writesFor ms pk) ck col) c

/-- What hides a row: it was deleted or a range tombstone starts at it; or the newest partition
tombstone has reached its deletion time and no cell of the row is newer. -/
def Hidden : Prop := (viewOf (writesFor ms pk)).marked ck = true ∨
    ∃ t, IsTop Prod.fst (tombstonesOf (writesFor ms pk)) t ∧ t.2 ≤ now ∧
      ¬ HasNewer (writesFor ms pk) ck t.1

/-- No two cells of one column, and no two partition tombstones, share a timestamp. -/
structure NoTies : Prop where
  cells : ∀ ck col, ∀ c ∈ cellsOf (writesFor ms pk) ck col, ∀ c' ∈ cellsOf (writesFor ms pk) ck col,
    c.timestamp = c'.timestamp → c = c'
  tombstones : ∀ t ∈ tombstonesOf (writesFor ms pk), ∀ t' ∈ tombstonesOf (writesFor ms pk),
    t.1 = t'.1 → t = t'

end

end CassandraVerified.Storage
