import CassandraVerified.Storage.Proofs.StoreProofs

/-!
# Proofs: what a read of the engine shows
-/

namespace CassandraVerified.Storage

open List

/-- The logged mutations of a column family, as operations on one partition. -/
def Logged.Writes (hist : Logged) (cfName : String) (pk : Bytes) (w : Write) : Prop :=
  ∃ r ∈ hist, r.2.cfName = cfName ∧ r.2.partitionKey = pk ∧ w ∈ r.2.writes

theorem mem_writesTo_ledger_iff {ms : Logged} {pk : Bytes} {w : Write} :
    w ∈ ms.ledger.writesTo pk ↔ ∃ r ∈ ms, r.2.partitionKey = pk ∧ w ∈ r.2.writes := by
  simp only [Ledger.mem_writesTo, Logged.ledger, ledgerOf, Mutation.ops, mem_flatMap,
    mem_map, Prod.mk.injEq]
  constructor
  · rintro ⟨m, ⟨r, hr, rfl⟩, w', hw', rfl, rfl⟩
    exact ⟨r, hr, rfl, hw'⟩
  · rintro ⟨r, hr, rfl, hw⟩
    exact ⟨r.2, ⟨r, hr, rfl⟩, w, hw, rfl, rfl⟩

theorem mem_tableWrites {ledger : SSTable → Ledger} {keyspace table : String} {pk : Bytes}
    {tables : List SSTable} {w : Write} :
    w ∈ tableWrites ledger keyspace table pk tables ↔
      ∃ t ∈ tables, t.keyspace = keyspace ∧ t.table = table ∧ w ∈ (ledger t).writesTo pk := by
  simp only [tableWrites, mem_flatMap]
  refine exists_congr fun t => and_congr_right fun _ => ?_
  split
  · next h => simp [h]
  · next h =>
    constructor
    · intro hw
      exact absurd hw (by simp)
    · rintro ⟨hks, htbl, -⟩
      exact absurd ⟨hks, htbl⟩ h

namespace StoreInv

variable {ext : LogExternal} {e : Store} {hist : Logged} {held flushed : Nat → Logged} {floor : Nat}

theorem distinctColumns_ledger {ms : Logged}
    (h : ∀ r ∈ ms, ∀ w ∈ r.2.writes, w.DistinctColumns) : ms.ledger.DistinctColumns := by
  intro op hop
  obtain ⟨m, hm, hop⟩ := mem_flatMap.mp hop
  obtain ⟨r, hr, rfl⟩ := mem_map.mp hm
  obtain ⟨w, hw, rfl⟩ := mem_map.mp hop
  exact h r hr w hw

theorem exists_active (inv : StoreInv ext e hist held flushed floor) (cfName : String) :
    ∃ ms : Logged, (e.memtables.activeData cfName).Records ms.ledger ∧
      (∀ r ∈ ms, r.2.cfName = cfName ∧ r ∈ hist) ∧
      ∀ mt, e.memtables.active[cfName]? = some mt → ms = held mt.id := by
  unfold MemtableManager.activeData
  cases hactive : e.memtables.active[cfName]? with
  | none => exact ⟨[], MemtableData.records_empty, by simp, by simp⟩
  | some mt =>
    have hmem : (cfName, mt) ∈ e.memtables.unflushed :=
      MemtableManager.mem_unflushed.mpr (.inl hactive)
    refine ⟨held mt.id, inv.records _ hmem, fun r hr => ?_, fun mt' h => ?_⟩
    · obtain ⟨hcf, -, -, hr'⟩ := inv.held_spec _ hmem r hr
      exact ⟨hcf, hr'⟩
    · rw [Option.some.inj h]

/-- A read shows exactly the operations that were logged for it, if no memtable waits for a flush to
be repeated. -/
theorem shows_read (inv : StoreInv ext e hist held flushed floor)
    (hflushing : e.memtables.flushing = [])
    (hdist : ∀ r ∈ hist, ∀ w ∈ r.2.writes, w.DistinctColumns) {keyspace : String}
    (hks : '.' ∉ keyspace.toList) (table : String) (pk : Bytes) :
    ∃ ws, Shows (e.read keyspace table pk) ws ∧
      ∀ w, w ∈ ws ↔ hist.Writes (keyspace ++ "." ++ table) pk w := by
  obtain ⟨ms, hmem, hms, hactive⟩ := inv.exists_active (keyspace ++ "." ++ table)
  have hdist' : ∀ {l : Logged}, (∀ r ∈ l, r ∈ hist) → l.ledger.DistinctColumns := fun hl =>
    distinctColumns_ledger fun r hr => hdist r (hl r hr)
  have htables : ∀ t ∈ e.sstables, t.Records (flushed t.generation).ledger ∧
      (flushed t.generation).ledger.DistinctColumns := by
    intro t ht
    obtain ⟨cfName, -, hspec⟩ := inv.flushed_spec t ht
    exact ⟨inv.tables t ht, hdist' fun r hr => (hspec r hr).2⟩
  refine ⟨_, shows_read_of_records hmem (hdist' fun r hr => (hms r hr).2) htables, fun w => ?_⟩
  rw [mem_append, mem_tableWrites, mem_writesTo_ledger_iff]
  constructor
  · rintro (⟨r, hr, hpk, hw⟩ | ⟨t, ht, hks', htbl', hw⟩)
    · exact ⟨r, (hms r hr).2, (hms r hr).1, hpk, hw⟩
    · obtain ⟨r, hr, hpk, hw⟩ := mem_writesTo_ledger_iff.mp hw
      obtain ⟨cfName, hnames, hspec⟩ := inv.flushed_spec t (mem_reverse.mp ht)
      refine ⟨r, (hspec r hr).2, ?_, hpk, hw⟩
      have hjoin : (splitCfName r.2.cfName).1 ++ "." ++ (splitCfName r.2.cfName).2 = r.2.cfName :=
        (splitCfName_spec _ _).2
      rw [(hspec r hr).1, ← hnames, hks', htbl'] at hjoin
      rw [(hspec r hr).1, ← hjoin]
  · rintro ⟨r, hr, hcf, hpk, hw⟩
    rcases inv.covered r hr with hnil | ⟨x, hx, hheld⟩ | ⟨t, ht, hflushed⟩
    · simp [hnil] at hw
    · refine .inl ⟨r, ?_, hpk, hw⟩
      have hx' := (MemtableManager.mem_unflushed.mp hx).resolve_right (by simp [hflushing])
      rw [← (inv.held_spec x hx r hheld).1, hcf] at hx'
      rwa [hactive _ hx']
    · obtain ⟨cfName, hnames, hspec⟩ := inv.flushed_spec t ht
      rw [← (hspec r hflushed).1, hcf, splitCfName_cfName hks, Prod.mk.injEq] at hnames
      exact .inr ⟨t, mem_reverse.mpr ht, hnames.1, hnames.2,
        mem_writesTo_ledger_iff.mpr ⟨r, hflushed, hpk, hw⟩⟩

end StoreInv

end CassandraVerified.Storage
