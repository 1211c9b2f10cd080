import CassandraVerified.Storage.Proofs.LedgerProofs
import CassandraVerified.Storage.Proofs.LogProofs
import CassandraVerified.Storage.Run

/-!
# Proofs: the invariant of the engine

`StoreInv` says of a state which mutations its commit log, its memtables and its SSTables hold. One
lemma for each operation says how these change; `StoreInv.step` puts them together.
-/

namespace CassandraVerified.Storage

open List
open Std (ExtTreeMap)
open MemtableManager Store Engine Function

variable {x : String × Memtable} {cfName : String} {segId id k : Nat} {T C : Type} {log : CommitLog}
  {m : Mutation} {old : Memtable}

/-! ## The memtable manager -/

namespace MemtableManager

variable {mgr : MemtableManager}

theorem mem_unflushed : x ∈ mgr.unflushed ↔ mgr.active[x.1]? = some x.2 ∨ x ∈ mgr.flushing := by
  obtain ⟨cf, mt⟩ := x
  simp [unflushed]

/-- A new active memtable, with the old one kept for flushing. -/
def replaceActive (mgr : MemtableManager) (cfName : String) (segId : Nat) : MemtableManager :=
  { mgr.createActive cfName segId with
    flushing := mgr.flushing ++ mgr.active[cfName]?.toList.map (cfName, ·) }

theorem switchMemtable_eq (mgr : MemtableManager) (cfName : String) (segId : Nat) :
    mgr.switchMemtable cfName segId = (mgr.active[cfName]?, mgr.replaceActive cfName segId) := by
  unfold switchMemtable replaceActive
  cases mgr.active[cfName]? with
  | some old => rfl
  | none => simp [createActive]

theorem getOrCreate_eq_of_none (h : mgr.active[cfName]? = none) (segId : Nat) :
    mgr.getOrCreate cfName segId = (⟨mgr.nextId, segId⟩, mgr.replaceActive cfName segId) := by
  simp [getOrCreate, replaceActive, h, createActive]

theorem mem_unflushed_replaceActive : x ∈ (mgr.replaceActive cfName segId).unflushed ↔
      x = (cfName, ⟨mgr.nextId, segId⟩) ∨ x ∈ mgr.unflushed := by
  obtain ⟨cf, mt⟩ := x
  simp only [mem_unflushed, replaceActive, createActive, ExtTreeMap.getElem?_insert,
    Std.compare_eq_iff_eq, mem_append, mem_map, Option.mem_toList,
    Prod.mk.injEq]
  by_cases hcf : cfName = cf
  · subst hcf
    simp only [if_true, Option.some.injEq, true_and, exists_eq_right]
    tauto
  · simp only [if_neg hcf, Ne.symm hcf, false_and, false_or]
    constructor
    · rintro (h | h | ⟨_, -, h, -⟩)
      · exact .inl h
      · exact .inr h
      · exact absurd h hcf
    · rintro (h | h)
      · exact .inl h
      · exact .inr (.inl h)

theorem mem_unflushed_of_flushComplete (hx : x ∈ (mgr.flushComplete id).unflushed) :
    x ∈ mgr.unflushed := by
  rw [mem_unflushed] at hx ⊢
  exact hx.imp_right fun h => (mem_filter.mp h).1

theorem mem_unflushed_flushComplete_of_ne (hx : x ∈ mgr.unflushed) (hne : x.2.id ≠ id) :
    x ∈ (mgr.flushComplete id).unflushed := by
  rw [mem_unflushed] at hx ⊢
  exact hx.imp_right fun h => mem_filter.mpr ⟨h, by simpa using hne⟩

theorem lowestCommitlogBound_le {lowest : Nat} (h : mgr.lowestCommitlogBound = some lowest)
    (hx : x ∈ mgr.unflushed) : lowest ≤ x.2.commitlogLowerBound := by
  have hmin := (List.min?_eq_some_iff.mp h).2
  exact hmin _ (mem_map.mpr ⟨x, hx, rfl⟩)

theorem exists_of_lowestCommitlogBound {lowest : Nat} (h : mgr.lowestCommitlogBound = some lowest) :
    ∃ x ∈ mgr.unflushed, x.2.commitlogLowerBound = lowest := by
  obtain ⟨x, hx, heq⟩ := mem_map.mp (List.min?_mem h)
  exact ⟨x, hx, heq⟩

end MemtableManager

/-! ## The invariant -/

/-- Mutations with the commit log segment that holds their record. -/
abbrev Logged := List (Nat × Mutation)

/-- The operations of logged mutations. -/
def Logged.ledger (ms : Logged) : Ledger := ledgerOf (ms.map Prod.snd)

/-- The log has the history `hist`, up to segments that may be gone; memtable `i` holds the
mutations `held i`, and SSTable `g` holds `flushed g`. -/
structure StoreInv (ext : LogExternal) (e : Store) (hist : Logged) (held flushed : Nat → Logged)
    (floor : Nat) : Prop where
  log : LogInv ext e.commitlog hist floor
  fresh : ∀ x ∈ e.memtables.unflushed, x.2.id < e.memtables.nextId
  inj : ∀ x ∈ e.memtables.unflushed, ∀ y ∈ e.memtables.unflushed, x.2.id = y.2.id → x = y
  records : ∀ x ∈ e.memtables.unflushed, (e.memtables.contents x.2.id).Records (held x.2.id).ledger
  /-- What a memtable holds is of its column family, and the log still has it. -/
  held_spec : ∀ x ∈ e.memtables.unflushed, ∀ r ∈ held x.2.id, r.2.cfName = x.1 ∧
    x.2.commitlogLowerBound ≤ r.1 ∧ floor < r.1 ∧ r ∈ hist
  gens : ∀ t ∈ e.sstables, t.generation < e.nextGeneration
  sorted : e.sstables.Pairwise fun t t' => t.generation < t'.generation
  tables : ∀ t ∈ e.sstables, t.Records (flushed t.generation).ledger
  flushed_spec : ∀ t ∈ e.sstables, ∃ cfName, (t.keyspace, t.table) = splitCfName cfName ∧
    ∀ r ∈ flushed t.generation, r.2.cfName = cfName ∧ r ∈ hist
  /-- Every mutation of the log that does anything is in a memtable or in an SSTable. -/
  covered : ∀ r ∈ hist, r.2.writes = [] ∨ (∃ x ∈ e.memtables.unflushed, r ∈ held x.2.id) ∨
    ∃ t ∈ e.sstables, r ∈ flushed t.generation

/-- No memtable is bounded by a segment that is still to come. -/
def Engine.Bounded {T C : Type} (e : Engine T C) : Prop :=
  ∀ x ∈ e.memtables.unflushed, x.2.commitlogLowerBound ≤ e.commitlog.current.id

theorem Logged.ledger_concat (ms : Logged) (r : Nat × Mutation) :
    Logged.ledger (ms ++ [r]) = ms.ledger ++ r.2.ops := by
  simp [Logged.ledger, ledgerOf]

/-- The SSTable that a flush of the memtable `old` writes. -/
def Store.tableOf (e : Store) (cfName : String) (old : Memtable) : SSTable where
  keyspace := (splitCfName cfName).1
  table := (splitCfName cfName).2
  generation := e.nextGeneration
  partitions := (e.memtables.contents old.id).iterPartitions

def Store.register (e : Store) (t : SSTable) : Store :=
  { e with nextGeneration := e.nextGeneration + 1, sstables := e.sstables ++ [t] }

theorem Engine.discardSegments_frame (e : Engine T C) (io : Io) :
    (e.discardSegments io).memtables = e.memtables ∧ (e.discardSegments io).sstables = e.sstables ∧
      (e.discardSegments io).commitlog.current = e.commitlog.current ∧
      (e.discardSegments io).commitlog.config = e.commitlog.config := by
  unfold discardSegments
  split
  · split
    · exact ⟨rfl, rfl, LogInv.discardCompletedSegments_frame _ _ _⟩
    · exact ⟨rfl, rfl, rfl, rfl⟩
  · exact ⟨rfl, rfl, rfl, rfl⟩

theorem Engine.Bounded.mono {e e' : Engine T C} (h : e.Bounded)
    (hid : e.commitlog.current.id ≤ e'.commitlog.current.id)
    (hsub : ∀ x ∈ e'.memtables.unflushed, x ∈ e.memtables.unflushed ∨
      x.2.commitlogLowerBound ≤ e'.commitlog.current.id) : e'.Bounded := by
  intro x hx
  rcases hsub x hx with hx | hx
  · exact (h x hx).trans hid
  · exact hx

theorem Engine.Bounded.replaceActive {e : Engine T C} (h : e.Bounded) (cfName : String)
    (hseg : segId ≤ e.commitlog.current.id) :
    Engine.Bounded { e with memtables := e.memtables.replaceActive cfName segId } := by
  refine h.mono le_rfl fun x hx => ?_
  rcases mem_unflushed_replaceActive.mp hx with rfl | hx
  · exact .inr hseg
  · exact .inl hx

namespace StoreInv

variable {ext : LogExternal} {e : Store} {hist : Logged} {held flushed : Nat → Logged} {floor : Nat}

theorem new (config : CommitLogConfig) (flushThreshold : Nat) :
    StoreInv ext (new config flushThreshold) [] (fun _ => []) (fun _ => []) 0 where
  log := LogInv.openLog_empty config
  fresh := by simp [Store.new, openEngine, MemtableManager.new, MemtableManager.unflushed]
  inj := by simp [Store.new, openEngine, MemtableManager.new, MemtableManager.unflushed]
  records := by simp [Store.new, openEngine, MemtableManager.new, MemtableManager.unflushed]
  held_spec := by simp
  gens := by simp [Store.new, openEngine]
  sorted := by simp [Store.new, openEngine]
  tables := by simp [Store.new, openEngine]
  flushed_spec := by simp [Store.new, openEngine]
  covered := by simp

section

variable (inv : StoreInv ext e hist held flushed floor)

include inv

theorem of_log {floor' : Nat} (hlog : LogInv ext log hist floor')
    (hfloor : ∀ x ∈ e.memtables.unflushed, ∀ r ∈ held x.2.id, floor' < r.1) :
    StoreInv ext { e with commitlog := log } hist held flushed floor' :=
  { inv with
    log := hlog
    held_spec := fun x hx r hr =>
      let ⟨hcf, hlower, _, hmem⟩ := inv.held_spec x hx r hr
      ⟨hcf, hlower, hfloor x hx r hr, hmem⟩ }

/-- A fresh active memtable. -/
theorem replaceActive (cfName : String) (segId : Nat) :
    StoreInv ext { e with memtables := e.memtables.replaceActive cfName segId } hist
      (update held e.memtables.nextId []) flushed floor := by
  have hold : ∀ x ∈ e.memtables.unflushed, x.2.id ≠ e.memtables.nextId := fun x hx =>
    Nat.ne_of_lt (inv.fresh x hx)
  refine { inv with fresh := ?_, inj := ?_, records := ?_, held_spec := ?_, covered := ?_ }
  · intro x hx
    rcases mem_unflushed_replaceActive.mp hx with rfl | hx
    · exact Nat.lt_succ_self _
    · exact Nat.lt_succ_of_lt (inv.fresh x hx)
  · intro x hx y hy hid
    rcases mem_unflushed_replaceActive.mp hx with rfl | hx <;>
      rcases mem_unflushed_replaceActive.mp hy with rfl | hy
    · rfl
    · exact absurd hid.symm (hold y hy)
    · exact absurd hid (hold x hx)
    · exact inv.inj x hx y hy hid
  · intro x hx
    rcases mem_unflushed_replaceActive.mp hx with rfl | hx
    · have hrec : MemtableData.empty.Records (Logged.ledger []) := MemtableData.records_empty
      simpa [MemtableManager.replaceActive, MemtableManager.createActive] using hrec
    · simpa [MemtableManager.replaceActive, MemtableManager.createActive, hold x hx] using
        inv.records x hx
  · intro x hx r hr
    rcases mem_unflushed_replaceActive.mp hx with rfl | hx
    · simp at hr
    · rw [update_of_ne (hold x hx)] at hr
      exact inv.held_spec x hx r hr
  · intro r hr
    refine (inv.covered r hr).imp_right (Or.imp_left ?_)
    rintro ⟨x, hx, hmem⟩
    refine ⟨x, mem_unflushed_replaceActive.mpr (.inr hx), ?_⟩
    rwa [update_of_ne (hold x hx)]

/-- A logged mutation reaches the memtable `mt` of its column family. -/
theorem write {mt : Memtable} (hlog : LogInv ext log (hist ++ [(k, m)]) floor)
    (hfloor : floor < k) (hmt : (m.cfName, mt) ∈ e.memtables.unflushed)
    (hlower : mt.commitlogLowerBound ≤ k) :
    StoreInv ext
      { e with commitlog := log, memtables := e.memtables.write mt m.partitionKey m.writes }
      (hist ++ [(k, m)]) (update held mt.id (held mt.id ++ [(k, m)])) flushed floor := by
  refine { inv with log := hlog, records := ?_, held_spec := ?_, flushed_spec := ?_,
                    covered := ?_ }
  · intro x hx
    by_cases hx' : x.2.id = mt.id
    · have hrec := inv.records _ hmt
      simp only [MemtableManager.write, hx', update_self, Logged.ledger_concat]
      exact hrec.writeAll m.partitionKey m.writes
    · simp only [MemtableManager.write, update_of_ne hx']
      exact inv.records x hx
  · intro x hx r hr
    by_cases hx' : x.2.id = mt.id
    · obtain rfl := inv.inj x hx _ hmt hx'
      rw [update_self] at hr
      rcases mem_append.mp hr with hr | hr
      · obtain ⟨hcf, hlower, hfloor, hmem⟩ := inv.held_spec _ hmt r hr
        exact ⟨hcf, hlower, hfloor, mem_append_left _ hmem⟩
      · obtain rfl := mem_singleton.mp hr
        exact ⟨rfl, hlower, hfloor, by simp⟩
    · rw [update_of_ne hx'] at hr
      obtain ⟨hcf, hlower, hfloor, hmem⟩ := inv.held_spec x hx r hr
      exact ⟨hcf, hlower, hfloor, mem_append_left _ hmem⟩
  · intro t ht
    obtain ⟨cfName, hnames, hspec⟩ := inv.flushed_spec t ht
    exact ⟨cfName, hnames, fun r hr => ⟨(hspec r hr).1, mem_append_left _ (hspec r hr).2⟩⟩
  · intro r hr
    rcases mem_append.mp hr with hr | hr
    · refine (inv.covered r hr).imp_right (Or.imp_left ?_)
      rintro ⟨x, hx, hmem⟩
      refine ⟨x, hx, ?_⟩
      by_cases hx' : x.2.id = mt.id
      · rw [hx', update_self]
        exact mem_append_left _ (hx' ▸ hmem)
      · rwa [update_of_ne hx']
    · obtain rfl := mem_singleton.mp hr
      exact .inr (.inl ⟨_, hmt, by simp⟩)

/-- A memtable goes of which every mutation is in an SSTable or does nothing. -/
theorem flushComplete (hdone : ∀ r ∈ held id, r.2.writes = [] ∨
      ∃ t ∈ e.sstables, r ∈ flushed t.generation) :
    StoreInv ext (e.flushComplete id) hist held flushed floor := by
  have hsub : ∀ x ∈ (e.memtables.flushComplete id).unflushed, x ∈ e.memtables.unflushed :=
    fun x hx => mem_unflushed_of_flushComplete hx
  refine { inv with
    fresh := fun x hx => inv.fresh x (hsub x hx)
    inj := fun x hx y hy => inv.inj x (hsub x hx) y (hsub y hy)
    records := fun x hx => inv.records x (hsub x hx)
    held_spec := fun x hx => inv.held_spec x (hsub x hx)
    covered := fun r hr => ?_ }
  rcases inv.covered r hr with hr' | ⟨x, hx, hmem⟩ | htable
  · exact .inl hr'
  · by_cases hx' : x.2.id = id
    · exact (hdone r (hx' ▸ hmem)).imp_right .inr
    · exact .inr (.inl ⟨x, mem_unflushed_flushComplete_of_ne hx hx', hmem⟩)
  · exact .inr (.inr htable)

theorem writes_eq_nil_of_empty (hold : (cfName, old) ∈ e.memtables.unflushed)
    (hempty : (e.memtables.contents old.id).iterPartitions = []) :
    ∀ r ∈ held old.id, r.2.writes = [] := by
  intro r hr
  have hnil : (held old.id).ledger = [] := (inv.records _ hold).eq_nil hempty
  have hops : r.2.ops = [] := flatMap_eq_nil_iff.mp hnil r.2 (mem_map.mpr ⟨r, hr, rfl⟩)
  simpa [Mutation.ops] using hops

theorem registerTable (hold : (cfName, old) ∈ e.memtables.unflushed) :
    StoreInv ext (e.register (e.tableOf cfName old)) hist held
      (update flushed e.nextGeneration (held old.id)) floor := by
  have hne : ∀ t ∈ e.sstables, t.generation ≠ e.nextGeneration := fun t ht =>
    Nat.ne_of_lt (inv.gens t ht)
  have hnew : update flushed e.nextGeneration (held old.id)
      (e.tableOf cfName old).generation = held old.id := update_self _ _ _
  refine { inv with gens := ?_, sorted := ?_, tables := ?_, flushed_spec := ?_, covered := ?_ }
  · intro t ht
    rcases mem_append.mp ht with ht | ht
    · exact Nat.lt_succ_of_lt (inv.gens t ht)
    · obtain rfl := mem_singleton.mp ht
      exact Nat.lt_succ_self _
  · refine pairwise_append.mpr ⟨inv.sorted, pairwise_singleton _ _, fun t ht t' ht' => ?_⟩
    obtain rfl := mem_singleton.mp ht'
    exact inv.gens t ht
  · intro t ht
    rcases mem_append.mp ht with ht | ht
    · rw [update_of_ne (hne t ht)]
      exact inv.tables t ht
    · obtain rfl := mem_singleton.mp ht
      rw [hnew]
      exact (inv.records _ hold).sstable _ _ _
  · intro t ht
    rcases mem_append.mp ht with ht | ht
    · rw [update_of_ne (hne t ht)]
      exact inv.flushed_spec t ht
    · obtain rfl := mem_singleton.mp ht
      rw [hnew]
      refine ⟨cfName, rfl, fun r hr => ?_⟩
      obtain ⟨hcf, -, -, hmem⟩ := inv.held_spec _ hold r hr
      exact ⟨hcf, hmem⟩
  · intro r hr
    refine (inv.covered r hr).imp_right (Or.imp_right ?_)
    rintro ⟨t, ht, hmem⟩
    refine ⟨t, mem_append_left _ ht, ?_⟩
    rwa [update_of_ne (hne t ht)]

theorem of_failed_write :
    StoreInv ext { e with nextGeneration := e.nextGeneration + 1 } hist held flushed floor :=
  { inv with gens := fun t ht => Nat.lt_succ_of_lt (inv.gens t ht) }

/-! ## Operations -/

/-- The segments that go are below everything a memtable holds. -/
theorem discardSegments (hbound : e.Bounded) (io : Io)
    : ∃ floor', StoreInv ext (e.discardSegments io) hist held flushed floor' := by
  unfold Engine.discardSegments
  split
  · next lowest hlowest =>
    split
    · next hgt =>
      obtain ⟨x, hx, hxlow⟩ := exists_of_lowestCommitlogBound hlowest
      have hle := hbound x hx
      have hnames : ∀ name ∈ io.listing e.commitlog.files.keys, ∃ k, name = segmentFilename k := by
        intro name hname
        have hkey := ExtTreeMap.mem_keys.mp ((io.listing_perm _).mem_iff.mp hname)
        rw [ExtTreeMap.mem_iff_isSome_getElem?, Option.isSome_iff_exists] at hkey
        obtain ⟨bytes, hbytes⟩ := hkey
        obtain ⟨k, -, -, hk, -⟩ := inv.log.files_known hbytes
        exact ⟨k, hk⟩
      have hlog := inv.log.discardCompletedSegments
        (show lowest - 1 < e.commitlog.current.id by omega) hnames
      refine ⟨max floor (lowest - 1), inv.of_log hlog fun y hy r hr => ?_⟩
      obtain ⟨-, hlower, hfloor, -⟩ := inv.held_spec y hy r hr
      have := lowestCommitlogBound_le hlowest hy
      omega
    · exact ⟨floor, inv⟩
  · exact ⟨floor, inv⟩

end

theorem writeSSTable_eq (e : Store) (cfName : String) (old : Memtable) (io : Io) :
    e.writeSSTable contentLayer cfName (e.memtables.contents old.id).iterPartitions io =
      if io.writeFails then
        ({ e with nextGeneration := e.nextGeneration + 1 }, .error (.sstable "i/o error"))
      else (e.register (e.tableOf cfName old), .ok ()) := by
  unfold writeSSTable
  by_cases h : io.writeFails
  · simp [h]
  · simp [h, contentLayer, register, tableOf]

theorem flushMemtable_cases (e : Store) (cfName : String) (old : Memtable) (io : Io) :
    (e.memtables.contents old.id).iterPartitions = [] ∧
        e.flushMemtable contentLayer cfName old io = (e.flushComplete old.id, .ok ()) ∨
      io.writeFails = true ∧ e.flushMemtable contentLayer cfName old io =
          ({ e with nextGeneration := e.nextGeneration + 1 }, .error (.sstable "i/o error")) ∨
      (e.memtables.contents old.id).iterPartitions ≠ [] ∧
        e.flushMemtable contentLayer cfName old io =
          (((e.register (e.tableOf cfName old)).flushComplete old.id).discardSegments io, .ok ()) := by
  unfold flushMemtable
  simp only [writeSSTable_eq]
  by_cases hempty : (e.memtables.contents old.id).iterPartitions = []
  · simp [hempty]
  · by_cases hfails : io.writeFails
    · simp [hempty, hfails]
    · simp [hempty, hfails]

/-- Where the flush of a memtable returns `Ok`, it is no longer waiting. -/
theorem flushMemtable (inv : StoreInv ext e hist held flushed floor) (hbound : e.Bounded)
    (hold : (cfName, old) ∈ e.memtables.unflushed) (io : Io) :
    ∃ flushed' floor',
      StoreInv ext (e.flushMemtable contentLayer cfName old io).1 hist held flushed' floor' ∧
      (e.flushMemtable contentLayer cfName old io).1.Bounded ∧
      (e.flushMemtable contentLayer cfName old io).1.commitlog.config = e.commitlog.config ∧
      (∀ x ∈ (e.flushMemtable contentLayer cfName old io).1.memtables.unflushed,
        x ∈ e.memtables.unflushed) ∧
      ((e.flushMemtable contentLayer cfName old io).2 = .ok () →
        (e.flushMemtable contentLayer cfName old io).1.memtables =
          e.memtables.flushComplete old.id) := by
  have hdone : ((e.register (e.tableOf cfName old)).flushComplete old.id).Bounded :=
    hbound.mono le_rfl fun x hx => .inl (mem_unflushed_of_flushComplete hx)
  rcases flushMemtable_cases e cfName old io with ⟨hempty, heq⟩ | ⟨-, heq⟩ | ⟨-, heq⟩
  · rw [heq]
    have inv' := inv.flushComplete fun r hr => .inl (inv.writes_eq_nil_of_empty hold hempty r hr)
    exact ⟨flushed, floor, inv', hdone, rfl, fun _ => mem_unflushed_of_flushComplete, fun _ => rfl⟩
  · rw [heq]
    exact ⟨flushed, floor, inv.of_failed_write, hbound, rfl, fun _ hx => hx,
      fun h => absurd h (by simp)⟩
  · have hwritten := (inv.registerTable hold).flushComplete fun r (hr : r ∈ held old.id) =>
      .inr ⟨_, mem_append_right _ (mem_singleton_self _), (update_self e.nextGeneration _ flushed) ▸ hr⟩
    obtain ⟨floor', inv'⟩ := hwritten.discardSegments hdone io
    obtain ⟨hmem, -, hcurrent, hconfig⟩ := discardSegments_frame
      ((e.register (e.tableOf cfName old)).flushComplete old.id) io
    rw [heq]
    refine ⟨_, floor', inv', ?_, hconfig, fun x hx => ?_, fun _ => hmem⟩
    · exact hdone.mono (by rw [hcurrent]) fun x hx => .inl (hmem ▸ hx)
    · exact mem_unflushed_of_flushComplete (hmem ▸ hx)

variable {r : Nat × Mutation}

theorem waiting_replaceActive (inv : StoreInv ext e hist held flushed floor)
    (hx : x ∈ (e.memtables.replaceActive cfName segId).unflushed)
    (hr : r ∈ update held e.memtables.nextId [] x.2.id) :
    x ∈ e.memtables.unflushed ∧ r ∈ held x.2.id := by
  rcases mem_unflushed_replaceActive.mp hx with rfl | hx
  · simp at hr
  · rw [update_of_ne (Nat.ne_of_lt (inv.fresh x hx))] at hr
    exact ⟨hx, hr⟩

/-- A flush moves what the memtable holds to an SSTable, or keeps it waiting. -/
theorem flushCf (inv : StoreInv ext e hist held flushed floor) (hbound : e.Bounded)
    (cfName : String) (io : Io) :
    ∃ held' flushed' floor',
      StoreInv ext (e.flushCf contentLayer cfName io).1 hist held' flushed' floor' ∧
      (e.flushCf contentLayer cfName io).1.Bounded ∧
      (e.flushCf contentLayer cfName io).1.commitlog.config = e.commitlog.config ∧
      (∀ x ∈ (e.flushCf contentLayer cfName io).1.memtables.unflushed, ∀ r ∈ held' x.2.id,
        x ∈ e.memtables.unflushed ∧ r ∈ held x.2.id) ∧
      ((e.flushCf contentLayer cfName io).2 = .ok () → e.memtables.flushing = [] →
        (e.flushCf contentLayer cfName io).1.memtables.flushing = [] ∧
        ∀ x ∈ (e.flushCf contentLayer cfName io).1.memtables.unflushed, ∀ r ∈ held' x.2.id,
          r.2.cfName ≠ cfName) := by
  have inv' := inv.replaceActive cfName e.commitlog.current.id
  have hbound' := hbound.replaceActive cfName le_rfl
  -- the active memtable is fresh, so that nothing of the column family waits in an active one
  have hactive : ∀ x : String × Memtable, (e.memtables.replaceActive cfName
      e.commitlog.current.id).active[x.1]? = some x.2 →
      ∀ r ∈ update held e.memtables.nextId [] x.2.id, r.2.cfName ≠ cfName := by
    intro x hx r hr hcf
    have hmem := mem_unflushed.mpr (Or.inl hx)
    obtain rfl : x.1 = cfName := ((inv'.held_spec x hmem r hr).1.symm.trans hcf)
    simp only [MemtableManager.replaceActive, MemtableManager.createActive,
      ExtTreeMap.getElem?_insert_self, Option.some.injEq] at hx
    simp [← hx] at hr
  unfold Engine.flushCf
  rw [switchMemtable_eq]
  cases hold : e.memtables.active[cfName]? with
  | none =>
    refine ⟨_, flushed, floor, inv', hbound', rfl, fun x hx r hr => inv.waiting_replaceActive hx hr,
      fun _ hnone => ?_⟩
    have hflushing : (e.memtables.replaceActive cfName e.commitlog.current.id).flushing = [] := by
      simp [MemtableManager.replaceActive, hold, hnone]
    refine ⟨hflushing, fun x hx => hactive x ?_⟩
    exact (mem_unflushed.mp hx).resolve_right (by rw [hflushing]; simp)
  | some old =>
    have hmem : (cfName, old) ∈ (e.memtables.replaceActive cfName
        e.commitlog.current.id).unflushed :=
      mem_unflushed_replaceActive.mpr (.inr (mem_unflushed.mpr (.inl hold)))
    obtain ⟨flushed', floor', inv'', hbound'', hconfig, hsub, hdone⟩ :=
      inv'.flushMemtable hbound' hmem io
    refine ⟨_, flushed', floor', inv'', hbound'', hconfig,
      fun x hx r hr => inv.waiting_replaceActive (hsub x hx) hr, fun hok hnone => ?_⟩
    have hflushing : ((e.memtables.replaceActive cfName e.commitlog.current.id).flushComplete
        old.id).flushing = [] := by
      simp [MemtableManager.flushComplete, MemtableManager.replaceActive, hold, hnone]
    simp only at hok ⊢
    rw [hdone hok]
    refine ⟨hflushing, fun x hx => hactive x ?_⟩
    exact (mem_unflushed.mp hx).resolve_right (by rw [hflushing]; simp)

theorem waiting_write {id' : Nat}
    (hr : r ∈ update held id (held id ++ [(k, m)]) id') :
    r = (k, m) ∨ r ∈ held id' := by
  by_cases hid : id' = id
  · subst hid
    rw [update_self, mem_append, mem_singleton] at hr
    exact hr.symm
  · rw [update_of_ne hid] at hr
    exact .inr hr

/-- A logged mutation is written to the active memtable of its column family. -/
theorem writeMutation (inv : StoreInv ext e hist held flushed floor) (hbound : e.Bounded)
    (hlog : LogInv ext log (hist ++ [(k, m)]) floor)
    (hid : e.commitlog.current.id ≤ log.current.id) (hk : k = log.current.id) :
    ∃ held', StoreInv ext ({ e with commitlog := log }.writeMutation m k) (hist ++ [(k, m)]) held'
        flushed floor ∧
      Engine.Bounded ({ e with commitlog := log }.writeMutation m k) ∧
      (∀ x ∈ ({ e with commitlog := log }.writeMutation m k).memtables.unflushed,
        ∀ r ∈ held' x.2.id, r = (k, m) ∨ x ∈ e.memtables.unflushed ∧ r ∈ held x.2.id) ∧
      ({ e with commitlog := log }.writeMutation m k).memtables.flushing = e.memtables.flushing := by
  have hfloor : floor < k := hk ▸ hlog.floor_lt
  unfold Engine.writeMutation
  cases hactive : e.memtables.active[m.cfName]? with
  | some mt =>
    have hmt : (m.cfName, mt) ∈ e.memtables.unflushed := mem_unflushed.mpr (.inl hactive)
    have heq : e.memtables.getOrCreate m.cfName k = (mt, e.memtables) := by
      simp [MemtableManager.getOrCreate, hactive]
    simp only [heq]
    refine ⟨_, inv.write hlog hfloor hmt (hk ▸ (hbound _ hmt).trans hid), ?_, ?_, rfl⟩
    · exact hbound.mono hid fun x hx => .inl hx
    · exact fun x hx r hr => (waiting_write hr).imp_right fun hr => ⟨hx, hr⟩
  | none =>
    -- a memtable that is created for the mutation is bounded by the segment of its record
    have hmt : (m.cfName, ⟨e.memtables.nextId, k⟩) ∈
        (e.memtables.replaceActive m.cfName k).unflushed :=
      mem_unflushed_replaceActive.mpr (.inl rfl)
    simp only [getOrCreate_eq_of_none hactive]
    refine ⟨_, (inv.replaceActive m.cfName k).write hlog hfloor hmt le_rfl, ?_, ?_, ?_⟩
    · refine hbound.mono hid fun x hx => ?_
      rcases mem_unflushed_replaceActive.mp hx with rfl | hx
      · exact .inr hk.le
      · exact .inl hx
    · exact fun x hx r hr => (waiting_write hr).imp_right (inv.waiting_replaceActive hx)
    · simp [MemtableManager.write, MemtableManager.replaceActive, hactive]

end StoreInv

/-! ## Runs -/

/-- The engine has logged the mutations `ms` and keeps them; its memtables hold none but those of
`waiting`. -/
def Store.Holds (ext : LogExternal) (config : CommitLogConfig) (e : Store)
    (ms waiting : List Mutation) : Prop :=
  ∃ hist held flushed floor, StoreInv ext e hist held flushed floor ∧ e.Bounded ∧
    e.commitlog.config = config ∧ hist.map Prod.snd = ms ∧
    ∀ x ∈ e.memtables.unflushed, ∀ r ∈ held x.2.id, r.2 ∈ waiting

variable {ms ms' : List Mutation}

theorem Store.Op.waiting_mono (h : ms ⊆ ms') (op : Store.Op) :
    op.waiting ms ⊆ op.waiting ms' := by
  cases op with
  | applyMutation m io =>
    exact append_subset.mpr ⟨fun _ hm => mem_append_left _ (h hm), by simp [waiting]⟩
  | flushCf cfName io => exact filter_subset _ h
  | discardSegments io => exact h

theorem Store.waiting_mono (h : ms ⊆ ms') (ops : List Store.Op) :
    waiting ms ops ⊆ waiting ms' ops := by
  induction ops generalizing ms ms' with
  | nil => exact h
  | cons op ops ih => exact ih (op.waiting_mono h)

namespace Store.Holds

variable {ext : LogExternal} {config : CommitLogConfig} {e : Store} {waiting : List Mutation}

theorem new (config : CommitLogConfig) (flushThreshold : Nat) :
    (Store.new config flushThreshold).Holds ext config [] [] := by
  have hnone : (Store.new config flushThreshold).memtables.unflushed = [] := by
    simp [Store.new, openEngine, MemtableManager.new, MemtableManager.unflushed]
  refine ⟨[], _, _, 0, StoreInv.new config flushThreshold, ?_, rfl, rfl, ?_⟩
  · simp [Engine.Bounded, hnone]
  · simp [hnone]

section

variable (h : e.Holds ext config ms waiting)

include h

theorem flushCf (cfName : String) (io : Io) :
    ∃ waiting', waiting' ⊆ waiting ∧
      Store.Holds ext config (e.flushCf contentLayer cfName io).1 ms waiting' ∧
      ((e.flushCf contentLayer cfName io).2 = .ok () → e.memtables.flushing = [] →
        (e.flushCf contentLayer cfName io).1.memtables.flushing = [] ∧
          waiting' ⊆ waiting.filter fun m => m.cfName ≠ cfName) := by
  obtain ⟨hist, held, flushed, floor, inv, hbound, hconfig, hms, hwait⟩ := h
  obtain ⟨held', flushed', floor', inv', hbound', hconfig', hsub, hdone⟩ :=
    inv.flushCf hbound cfName io
  have hwait' : ∀ x ∈ (e.flushCf contentLayer cfName io).1.memtables.unflushed,
      ∀ r ∈ held' x.2.id, r.2 ∈ waiting := fun x hx r hr =>
    hwait x (hsub x hx r hr).1 r (hsub x hx r hr).2
  by_cases hok : (e.flushCf contentLayer cfName io).2 = .ok () ∧ e.memtables.flushing = []
  · obtain ⟨hnone, hne⟩ := hdone hok.1 hok.2
    refine ⟨waiting.filter fun m => m.cfName ≠ cfName, filter_subset_self _,
      ⟨hist, held', flushed', floor', inv', hbound', hconfig'.trans hconfig, hms, ?_⟩,
      fun _ _ => ⟨hnone, fun _ h => h⟩⟩
    exact fun x hx r hr => mem_filter.mpr ⟨hwait' x hx r hr, by simpa using hne x hx r hr⟩
  · exact ⟨waiting, fun _ h => h, ⟨hist, held', flushed', floor', inv', hbound',
      hconfig'.trans hconfig, hms, hwait'⟩, fun h h' => absurd ⟨h, h'⟩ hok⟩

theorem discardSegments (io : Io) : Store.Holds ext config (e.discardSegments io) ms waiting := by
  obtain ⟨hist, held, flushed, floor, inv, hbound, hconfig, hms, hwait⟩ := h
  obtain ⟨floor', inv'⟩ := inv.discardSegments hbound io
  obtain ⟨hmem, -, hcurrent, hconfig'⟩ := discardSegments_frame e io
  refine ⟨hist, held, flushed, floor', inv', ?_, hconfig'.trans hconfig, hms, hmem ▸ hwait⟩
  exact hbound.mono (by rw [hcurrent]) fun x hx => .inl (hmem ▸ hx)

theorem writeMutation {cdcUsed offset : Nat}
    (happ : e.commitlog.append ext m cdcUsed = (log, .ok (k, offset))) :
    Store.Holds ext config ({ e with commitlog := log }.writeMutation m k) (ms ++ [m])
        (waiting ++ [m]) ∧
      ({ e with commitlog := log }.writeMutation m k).memtables.flushing = e.memtables.flushing := by
  obtain ⟨hist, held, flushed, floor, inv, hbound, hconfig, rfl, hwait⟩ := h
  obtain ⟨hlog, hk⟩ := inv.log.append happ
  obtain ⟨hconfig', hid, -⟩ := inv.log.append_frame happ
  obtain ⟨held', inv', hbound', hsub, hflushing⟩ := inv.writeMutation hbound hlog hid hk
  refine ⟨⟨_, held', flushed, floor, inv', hbound', hconfig'.trans hconfig, by simp, ?_⟩, hflushing⟩
  intro x hx r hr
  rcases hsub x hx r hr with rfl | ⟨hx, hr⟩
  · simp
  · exact mem_append_left _ (hwait x hx r hr)

theorem append_of_error {cdcUsed : Nat} {err : CommitLogError}
    (happ : e.commitlog.append ext m cdcUsed = (log, .error err)) :
    Store.Holds ext config { e with commitlog := log } ms waiting := by
  obtain ⟨hist, held, flushed, floor, inv, hbound, hconfig, hms, hwait⟩ := h
  obtain ⟨hconfig', hid, -⟩ := inv.log.append_frame happ
  refine ⟨hist, held, flushed, floor, inv.of_log (inv.log.append_of_error happ) ?_,
    hbound.mono hid fun x hx => .inl hx, hconfig'.trans hconfig, hms, hwait⟩
  exact fun x hx r hr => (inv.held_spec x hx r hr).2.2.1

/-- A call adds at most its own mutation, and a call that returns `Ok` does add it. -/
theorem step (op : Store.Op) :
    ∃ new waiting', Store.Holds ext config (e.step ext op).1 (ms ++ new) waiting' ∧
      (new = [] ∨ new = op.mutation?.toList) ∧
      ((e.step ext op).2 = .ok () → new = op.mutation?.toList ∧ (e.memtables.flushing = [] →
        (e.step ext op).1.memtables.flushing = [] ∧ waiting' ⊆ op.waiting waiting)) := by
  cases op with
  | flushCf cfName io =>
    obtain ⟨waiting', -, h', hdone⟩ := h.flushCf cfName io
    exact ⟨[], waiting', by rw [append_nil]; exact h', .inl rfl, fun hok => ⟨rfl, hdone hok⟩⟩
  | discardSegments io =>
    refine ⟨[], waiting, by rw [append_nil]; exact h.discardSegments io, .inl rfl,
      fun _ => ⟨rfl, fun hnone => ⟨?_, fun _ hm => hm⟩⟩⟩
    rw [Store.step, (discardSegments_frame e io).1, hnone]
  | applyMutation m io =>
    simp only [Store.step, applyMutation, Store.Op.mutation?, Option.toList_some]
    cases happ : e.commitlog.append ext m io.cdcUsed with
    | mk log result =>
      cases result with
      | error err =>
        refine ⟨[], waiting, ?_, .inl rfl, fun hok => absurd hok (by simp)⟩
        rw [append_nil]
        exact h.append_of_error happ
      | ok r =>
        obtain ⟨h', hflushing⟩ := h.writeMutation happ
        obtain ⟨waiting', hsub, h'', hdone⟩ := h'.flushCf m.cfName io
        simp only
        by_cases hfull : ({ e with commitlog := log }.writeMutation m r.1).memtables.shouldFlush
        · simp only [hfull, if_true]
          exact ⟨[m], waiting', h'', .inr rfl, fun hok => ⟨rfl, fun hnone =>
            ⟨(hdone hok (hflushing.trans hnone)).1, hsub⟩⟩⟩
        · simp only [hfull, Bool.false_eq_true, if_false]
          exact ⟨[m], waiting ++ [m], h', .inr rfl, fun _ => ⟨rfl, fun hnone =>
            ⟨hflushing.trans hnone, fun _ hm => hm⟩⟩⟩

/-- A run keeps what was there and adds the acknowledged mutations at least and, where every call
returned `Ok`, exactly those of the calls in their order. -/
theorem run (ops : List Store.Op) :
    ∃ new waiting', Store.Holds ext config (e.run ext ops).1 (ms ++ new) waiting' ∧
      (∀ m ∈ acknowledged ops (e.run ext ops).2, m ∈ new) ∧
      ((∀ r ∈ (e.run ext ops).2, r = .ok ()) → new = ops.filterMap Store.Op.mutation? ∧
        (e.memtables.flushing = [] → (e.run ext ops).1.memtables.flushing = [] ∧
          waiting' ⊆ Store.waiting waiting ops)) := by
  induction ops generalizing e ms waiting with
  | nil =>
    exact ⟨[], waiting, by simpa [run] using h, by simp [acknowledged],
      by simp [Store.run, Store.waiting]⟩
  | cons op ops ih =>
    obtain ⟨first, waiting', h', hfirst, hok⟩ := h.step op
    obtain ⟨rest, waiting'', h'', hacked, hall⟩ := ih h'
    refine ⟨first ++ rest, waiting'', by simpa [run] using h'', ?_, ?_⟩
    · intro m hm
      cases hres : (e.step ext op).2 with
      | error err =>
        rw [run, hres, acknowledged] at hm
        exact mem_append_right _ (hacked m hm)
      | ok u =>
        rw [run, hres, acknowledged] at hm
        rcases mem_append.mp hm with hm | hm
        · exact mem_append_left _ ((hok hres).1 ▸ hm)
        · exact mem_append_right _ (hacked m hm)
    · intro hres
      simp only [run, mem_cons, forall_eq_or_imp] at hres
      obtain ⟨hnew, hflushing⟩ := hok hres.1
      obtain ⟨hrest, hflushing'⟩ := hall hres.2
      refine ⟨?_, fun hnone => ?_⟩
      · cases hmut : op.mutation? <;> simp [hnew, hrest, hmut]
      · obtain ⟨hnone', hsub⟩ := hflushing hnone
        obtain ⟨hnone'', hsub'⟩ := hflushing' hnone'
        exact ⟨hnone'', fun _ hm => waiting_mono hsub ops (hsub' hm)⟩

end

end Store.Holds

end CassandraVerified.Storage
