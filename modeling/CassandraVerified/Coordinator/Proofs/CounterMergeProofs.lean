import CassandraVerified.Coordinator.CounterMerge

/-!
# Proofs: merging counter mutations

The cells of rows are merged without loss. The static cells of a mutation are lost, unless it is the
first one for its partition.
-/

namespace CassandraVerified.Coordinator

open Storage (Bytes)
open TreeMap (IterationOrder)
open Upsert (upsertAll upsertAll_spec sum_upsertAll_of_merge_eq)

attribute [local instance] addCommGroupInt64

theorem delta?_mergeCounter {e n : CellMutation} (he : e.delta?.isSome) (hn : n.delta?.isSome) :
    (e.mergeCounter n).delta? = some (e.delta?.getD 0 + n.delta?.getD 0) := by
  obtain ⟨d, hd⟩ := Option.isSome_iff_exists.mp he
  obtain ⟨d', hd'⟩ := Option.isSome_iff_exists.mp hn
  have hlt : (d + d').toUInt64.toNat < 256 ^ 8 := (d + d').toUInt64.toNat_lt
  have hvalue : (e.mergeCounter n).value = some (Wire.beBytes 8 (d + d').toUInt64.toNat) := by
    simp [CellMutation.mergeCounter, hd, hd']
  rw [CellMutation.delta?, hvalue, Option.filter_some, if_pos (by simp), Option.map_some,
    Wire.beNat_beBytes_of_lt hlt, UInt64.ofNat_toNat, hd, hd']
  rfl

/-- Every cell of the row is an increment. -/
def MutationRow.IsCounter (r : MutationRow) : Prop := ∀ c ∈ r.cells, c.delta?.isSome

theorem increment_mergeCounter {r new : MutationRow} (column : String) (hr : r.IsCounter)
    (hnew : new.IsCounter) : (r.mergeCounter new).IsCounter ∧
      increment column (r.mergeCounter new).cells =
        increment column r.cells + increment column new.cells := by
  refine upsertAll_spec (fun {e n} he hn hcolumn => ?_) hnew hr
  have hmerged := delta?_mergeCounter he hn
  have hname : (e.mergeCounter n).column = e.column := rfl
  refine ⟨by simp [hmerged], ?_⟩
  simp only [hname, ← hcolumn, hmerged]
  split <;> simp

theorem rowIncrement_mergeCounter {m new : CoordinatedMutation} (clusteringKey : Bytes)
    (column : String) (hm : m.IsCounter) (hnew : new.IsCounter) :
    (m.mergeCounter new).IsCounter ∧ (m.mergeCounter new).rowIncrement clusteringKey column =
        m.rowIncrement clusteringKey column + new.rowIncrement clusteringKey column := by
  refine upsertAll_spec (P := MutationRow.IsCounter) (fun {r r'} hr hr' hkey => ?_) hnew hm
  obtain ⟨hcounter, hsum⟩ := increment_mergeCounter column hr hr'
  have hsame : (r.mergeCounter r').clusteringKey = r.clusteringKey := rfl
  refine ⟨hcounter, ?_⟩
  simp only [hsame, ← hkey, hsum]
  split <;> simp

variable {mutations : List CoordinatedMutation} (order : IterationOrder CoordinatedMutation)

theorem total_rowIncrement (h : ∀ m ∈ mutations, m.IsCounter) (key : String × String × Bytes)
    (clusteringKey : Bytes) (column : String) :
    total key (·.rowIncrement clusteringKey column) (mergeCounterMutations order mutations) =
      total key (·.rowIncrement clusteringKey column) mutations := by
  have hsum : total key (·.rowIncrement clusteringKey column)
      (upsertAll (·.key) .mergeCounter [] mutations) =
        0 + total key (·.rowIncrement clusteringKey column) mutations := by
    refine (upsertAll_spec (P := CoordinatedMutation.IsCounter) (fun {m m'} hm hm' hkey => ?_) h
      (by simp)).2
    obtain ⟨hcounter, hsum⟩ := rowIncrement_mergeCounter clusteringKey column hm hm'
    have hsame : (m.mergeCounter m').key = m.key := rfl
    refine ⟨hcounter, ?_⟩
    simp only [hsame, ← hkey, hsum]
    split <;> simp
  exact ((order.perm _).map _).sum_eq.trans (hsum.trans (zero_add _))

theorem total_staticIncrement (key : String × String × Bytes) (column : String) :
    total key (·.staticIncrement column) (mergeCounterMutations order mutations) =
      ((mutations.filter (·.key = key)).head?.map (·.staticIncrement column)).getD 0 := by
  have hfirst : total key (·.staticIncrement column)
      (upsertAll (·.key) .mergeCounter [] mutations) = 0 + _ :=
    sum_upsertAll_of_merge_eq key (fun _ _ => rfl) fun _ _ => rfl
  exact ((order.perm _).map _).sum_eq.trans (hfirst.trans (zero_add _))

theorem total_eq_sum_filter (key : String × String × Bytes) (f : CoordinatedMutation → Int64) :
    total key f mutations = ((mutations.filter (·.key = key)).map f).sum := by
  induction mutations with
  | nil => rfl
  | cons m mutations ih =>
    by_cases hm : m.key = key
    · simpa [total, hm] using ih
    · simpa [total, hm] using ih

/-- Nothing is lost exactly if the mutations of a partition but the first one have, on balance, no
static increments. -/
theorem sameIncrements_iff (h : ∀ m ∈ mutations, m.IsCounter) :
    SameIncrements mutations (mergeCounterMutations order mutations) ↔
      ∀ key column, ((mutations.filter (·.key = key)).tail.map (·.staticIncrement column)).sum =
        0 := by
  have hstatic (key : String × String × Bytes) (column : String) :
      total key (·.staticIncrement column) (mergeCounterMutations order mutations) =
          total key (·.staticIncrement column) mutations ↔
        ((mutations.filter (·.key = key)).tail.map (·.staticIncrement column)).sum = 0 := by
    rw [total_staticIncrement, total_eq_sum_filter]
    generalize mutations.filter (·.key = key) = group
    cases group <;> simp
  exact forall₂_congr fun key column =>
    (and_iff_left fun ck => total_rowIncrement order h key ck column).trans (hstatic key column)

def incrementOf (column : String) (delta : UInt8) : CellMutation :=
  ⟨column, some [0, 0, 0, 0, 0, 0, 0, delta], 1, 0, false, none⟩

/-- An increment of the column `a` of a row, with static cells. -/
def incrementA (delta : UInt8) (staticCells : List CellMutation) : CoordinatedMutation :=
  ⟨"ks", "t", [0], [⟨[1], [incrementOf "a" delta], false, none⟩], 1, .counter, staticCells, none⟩

theorem sameIncrements_iff_oneStatic :
    SameIncrements [incrementA 2 [incrementOf "s" 3], incrementA 5 []]
      (mergeCounterMutations .same [incrementA 2 [incrementOf "s" 3], incrementA 5 []]) := by
  have hcounter : ∀ m ∈ [incrementA 2 [incrementOf "s" 3], incrementA 5 []], m.IsCounter := by
    simp only [CoordinatedMutation.IsCounter]
    decide
  refine (sameIncrements_iff .same hcounter).mpr fun key column => ?_
  by_cases hkey : ("ks", "t", [0]) = key <;>
    simp [CoordinatedMutation.key, incrementA, hkey, CoordinatedMutation.staticIncrement, increment]

theorem not_sameIncrements_twoStatic :
    ¬ SameIncrements [incrementA 2 [incrementOf "s" 3], incrementA 5 [incrementOf "s" 7]]
      (mergeCounterMutations .same
        [incrementA 2 [incrementOf "s" 3], incrementA 5 [incrementOf "s" 7]]) := fun h =>
  absurd (h ("ks", "t", [0]) "s").1 (by decide)

end CassandraVerified.Coordinator
