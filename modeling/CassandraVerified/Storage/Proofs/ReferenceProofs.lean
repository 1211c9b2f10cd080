import CassandraVerified.Storage.Proofs.ConvergenceProofs
import CassandraVerified.Storage.Proofs.DurabilityProofs
import CassandraVerified.Storage.Proofs.ReadProofs
import CassandraVerified.Storage.Reference

/-!
# Proofs: reads against their reference semantics
-/

namespace CassandraVerified.Storage

open List
open Lww (IsTop)
open PartitionData

variable {ms : List Mutation} {pk ck : Bytes} {col : String} {now : Int32} {c : Cell}
  {ws : List Write} {result : Option PartitionData}

theorem NoTies.tombstone_eq_some_iff (h : NoTies ms pk) (hws : Delivers ws (writesFor ms pk))
    {t : Int64 × Int32} :
    (viewOf ws).tombstone = some t ↔ IsTop Prod.fst (tombstonesOf (writesFor ms pk)) t := by
  refine ⟨hws.isTop_of_tombstone, fun ht => ?_⟩
  obtain ⟨t', htomb, ht', hts⟩ := hws.exists_tombstone ht
  rw [htomb, h.tombstones t' ht'.1 t ht.1 hts]

section

variable (h : NoTies ms pk) (hws : Delivers ws (writesFor ms pk))

include h hws

theorem NoTies.rowShown_iff (hc : Newest ms pk ck col c) :
    (viewOf ws).RowShown now ck ↔ ¬ Hidden ms pk ck now := by
  have htouched : (viewOf (writesFor ms pk)).touched ck = true := by
    obtain ⟨r, hr, hck, -⟩ := mem_cellsOf.mp hc.1
    exact viewOf_touched.mpr ⟨r, hr, hck⟩
  rw [hws.rowShown_iff, Kept, Hidden, not_or, not_exists]
  simp [htouched, h.tombstone_eq_some_iff hws]

end

section

variable {ext : LogExternal} {config : CommitLogConfig} {flushThreshold : Nat}
  {calls : List (Mutation × Io)} {keyspace table : String}

/-- The engine after calls of `apply_mutation`, and their results. -/
def applyCalls (ext : LogExternal) (config : CommitLogConfig) (flushThreshold : Nat)
    (calls : List (Mutation × Io)) : Store × List (Except EngineError Unit) :=
  (Store.new config flushThreshold).run ext (calls.map fun c => .applyMutation c.1 c.2)

/-- After calls that all returned `Ok`, a read shows the operations of all mutations to its
table. -/
theorem exists_shows_run {ops : List Store.Op} (hks : '.' ∉ keyspace.toList)
    (hdist : ∀ m ∈ ops.filterMap Store.Op.mutation?, ∀ w ∈ m.writes, w.DistinctColumns)
    (hok : ∀ r ∈ ((Store.new config flushThreshold).run ext ops).2, r = .ok ()) (table : String)
    (pk : Bytes) :
    ∃ ws, Shows (((Store.new config flushThreshold).run ext ops).1.read keyspace table pk) ws ∧
      Delivers ws (writesOn (ops.filterMap Store.Op.mutation?) (keyspace ++ "." ++ table) pk) := by
  obtain ⟨new, waiting, ⟨hist, held, flushed, floor, inv, -, -, hms, -⟩, -, hall⟩ :=
    Store.Holds.run (Store.Holds.new config flushThreshold) ops
  obtain ⟨rfl, hflushing⟩ := hall hok
  rw [nil_append] at hms
  have hmem : ∀ m, m ∈ ops.filterMap Store.Op.mutation? ↔ ∃ r ∈ hist, r.2 = m := fun m => by
    rw [← hms, mem_map]
  obtain ⟨ws, hshows, hws⟩ := inv.shows_read (hflushing rfl).1
    (fun r hr => hdist r.2 ((hmem r.2).mpr ⟨r, hr, rfl⟩)) hks table pk
  refine ⟨ws, hshows, fun w => (hws w).trans ?_⟩
  simp only [Logged.Writes, writesOn, mem_flatMap, mem_filter, hmem, decide_eq_true_eq]
  constructor
  · rintro ⟨r, hr, hcf, hpk, hw⟩
    exact ⟨r.2, ⟨⟨r, hr, rfl⟩, hcf, hpk⟩, hw⟩
  · rintro ⟨_, ⟨⟨r, hr, rfl⟩, hcf, hpk⟩, hw⟩
    exact ⟨r, hr, hcf, hpk, hw⟩

variable (hks : '.' ∉ keyspace.toList)
  (htable : ∀ c ∈ calls, c.1.keyspace = keyspace ∧ c.1.table = table)
  (hdist : ∀ c ∈ calls, ∀ w ∈ c.1.writes, w.DistinctColumns)
  (hok : ∀ r ∈ (applyCalls ext config flushThreshold calls).2, r = .ok ())

include hks htable hdist hok

/-- After calls on one table that all returned `Ok`, a read shows the operations of all of them. -/
theorem exists_shows_applyCalls (pk : Bytes) :
    ∃ ws, Shows ((applyCalls ext config flushThreshold calls).1.read keyspace table pk) ws ∧
      Delivers ws (writesFor (calls.map Prod.fst) pk) := by
  have hms : (calls.map fun c => Store.Op.applyMutation c.1 c.2).filterMap Store.Op.mutation? =
      calls.map Prod.fst := by
    rw [filterMap_map]
    exact congrFun filterMap_eq_map' calls
  obtain ⟨ws, hshows, hws⟩ := exists_shows_run hks (by simpa [hms] using hdist) hok table pk
  refine ⟨ws, hshows, fun w => (hws w).trans ?_⟩
  rw [hms, writesFor, Ledger.mem_writesTo]
  simp only [writesOn, ledgerOf, Mutation.ops, mem_flatMap, mem_filter, mem_map,
    decide_eq_true_eq, Prod.mk.injEq]
  constructor
  · rintro ⟨m, ⟨hm, -, hpk⟩, hw⟩
    exact ⟨m, hm, w, hw, hpk, rfl⟩
  · rintro ⟨_, ⟨c, hc, rfl⟩, w, hw, hpk, rfl⟩
    refine ⟨c.1, ⟨⟨c, hc, rfl⟩, ?_, hpk⟩, hw⟩
    rw [Mutation.cfName, (htable c hc).1, (htable c hc).2]

end

end CassandraVerified.Storage
