import CassandraVerified.Storage.Concurrent
import CassandraVerified.Storage.Proofs.DurabilityProofs
import CassandraVerified.Storage.Proofs.ReadProofs

/-!
# Proofs: concurrent writers and flushes

The invariant `SysInv` follows every memtable that was ever created: it is active, or some thread is
flushing it, or it is frozen and all that it holds is in SSTables. A quiet step keeps it, because
the memtable that is iterated is no longer written to.
-/

namespace CassandraVerified.Storage

open List
open Std (ExtTreeMap)
open MemtableManager Thread

variable {th : Thread}

variable {m : Mutation} {id segId : Nat} {cf : String} {mt : Memtable} {w : Write}

/-! ## The invariant -/

/-- What each memtable and SSTable has received, by id and generation, and the column family of each
memtable. -/
structure Ghost where
  held : Nat → Ledger
  flushed : Nat → Ledger
  cfOf : Nat → String

/-- The memtable is the active one of a column family. -/
def MemtableManager.Active (mgr : MemtableManager) (id : Nat) : Prop :=
  ∃ (cf : String) (mt : Memtable), mgr.active[cf]? = some mt ∧ mt.id = id

/-- The memtable is not active, and no thread will write to it. -/
def System.Frozen (s : System) (id : Nat) : Prop :=
  ¬ s.store.memtables.Active id ∧ ∀ th ∈ s.threads, th.writesTo id = false

/-- The engine holds the operations of the ghost state, and all of them come from `ms`. -/
structure Engine.Keeps (e : Store) (g : Ghost) (ms : List Mutation) : Prop where
  records : ∀ id, (e.memtables.contents id).Records (g.held id)
  fresh : ∀ id, e.memtables.nextId ≤ id → g.held id = []
  active : ∀ (cf : String) (mt : Memtable), e.memtables.active[cf]? = some mt →
    mt.id < e.memtables.nextId ∧ g.cfOf mt.id = cf
  origin : ∀ id, ∀ op ∈ g.held id, ∃ m ∈ ms, m.cfName = g.cfOf id ∧ op ∈ m.ops
  gens : ∀ t ∈ e.sstables, t.generation < e.nextGeneration
  tables : ∀ t ∈ e.sstables, t.Records (g.flushed t.generation)
  tables_origin : ∀ t ∈ e.sstables, ∃ cf, (t.keyspace, t.table) = splitCfName cf ∧
    ∀ op ∈ g.flushed t.generation, ∃ m ∈ ms, m.cfName = cf ∧ op ∈ m.ops

section

variable (mgr : MemtableManager) (g : Ghost) (ms : List Mutation)

/-- Some memtable of its column family has received all of the mutation. -/
def Applied (m : Option Mutation) : Prop := ∀ m' ∈ m, m' ∈ ms ∧
    ∃ id < mgr.nextId, g.cfOf id = m'.cfName ∧ ∀ op ∈ m'.ops, op ∈ g.held id

/-- What holds of a thread between two steps. -/
def Thread.Inv : Thread → Prop
  | apply m => m ∈ ms
  | logged m _ => m ∈ ms
  | writing m mt rest => m ∈ ms ∧ mt.id < mgr.nextId ∧ g.cfOf mt.id = m.cfName ∧
      ∃ done, m.writes = done ++ rest ∧ ∀ w ∈ done, (m.partitionKey, w) ∈ g.held mt.id
  | flush _ m => Applied mgr g ms m
  | switched cf old m => Applied mgr g ms m ∧ old.id < mgr.nextId ∧ ¬ mgr.Active old.id ∧
      g.cfOf old.id = cf
  | iterated cf old _ m => Applied mgr g ms m ∧ old.id < mgr.nextId ∧ g.cfOf old.id = cf
  | registered _ m => Applied mgr g ms m
  | completed m => Applied mgr g ms m
  | failed _ m _ => Applied mgr g ms m
  | returned m result => result = .ok () → Applied mgr g ms m

end

/-- All that the memtable holds is in SSTables, and it gets no more. -/
def System.Done (s : System) (g : Ghost) (id : Nat) : Prop :=
  s.Frozen id ∧ ∀ op ∈ g.held id, ∃ t ∈ s.store.sstables,
    (t.keyspace, t.table) = splitCfName (g.cfOf id) ∧ op ∈ g.flushed t.generation

/-- Some thread is flushing the memtable, or has failed to. -/
def System.Flushing (s : System) (id : Nat) : Prop := ∃ (j : Nat) (th : Thread) (old : Memtable),
    s.threads[j]? = some th ∧ th.flushing? = some old ∧ old.id = id

/-- The invariant of a run. -/
structure SysInv (s : System) (g : Ghost) (ms : List Mutation) : Prop where
  keeps : s.store.Keeps g ms
  threads : ∀ th ∈ s.threads, th.Inv s.store.memtables g ms
  /-- What was iterated is all that the memtable will ever hold. -/
  iterated : ∀ cf old ps m, .iterated cf old ps m ∈ s.threads →
    s.Frozen old.id ∧ ps = (s.store.memtables.contents old.id).iterPartitions
  settled : ∀ id < s.store.memtables.nextId,
    s.store.memtables.Active id ∨ s.Flushing id ∨ s.Done g id

/-- A step adds to what is held, and leaves alone what is frozen or in an SSTable. -/
structure Grows (s : System) (g : Ghost) (e : Store) (g' : Ghost) : Prop where
  nextId : s.store.memtables.nextId ≤ e.memtables.nextId
  held : ∀ id, g.held id ⊆ g'.held id
  cfOf : ∀ id < s.store.memtables.nextId, g'.cfOf id = g.cfOf id
  inactive : ∀ id < s.store.memtables.nextId, ¬ s.store.memtables.Active id →
    ¬ e.memtables.Active id
  frozen : ∀ id < s.store.memtables.nextId, s.Frozen id →
    e.memtables.contents id = s.store.memtables.contents id ∧ g'.held id = g.held id
  tables : ∀ t ∈ s.store.sstables, t ∈ e.sstables ∧ g'.flushed t.generation = g.flushed t.generation

namespace Grows

variable {s : System} {g g' : Ghost} {e : Store} {ms : List Mutation}

theorem applied (h : Grows s g e g') {m : Option Mutation}
    (hm : Applied s.store.memtables g ms m) : Applied e.memtables g' ms m := by
  intro m' hm'
  obtain ⟨hmem, id, hid, hcf, hops⟩ := hm m' hm'
  exact ⟨hmem, id, hid.trans_le h.nextId, (h.cfOf id hid).trans hcf,
    fun op hop => h.held id (hops op hop)⟩

theorem threadInv (h : Grows s g e g') (hth : th.Inv s.store.memtables g ms) :
    th.Inv e.memtables g' ms := by
  cases th with
  | apply m => exact hth
  | logged m segId => exact hth
  | writing m mt rest =>
    obtain ⟨hm, hid, hcf, done, hwrites, hdone⟩ := hth
    exact ⟨hm, hid.trans_le h.nextId, (h.cfOf _ hid).trans hcf, done, hwrites,
      fun w hw => h.held _ (hdone w hw)⟩
  | flush cf m => exact h.applied hth
  | switched cf old m =>
    obtain ⟨hm, hid, hactive, hcf⟩ := hth
    exact ⟨h.applied hm, hid.trans_le h.nextId, h.inactive _ hid hactive, (h.cfOf _ hid).trans hcf⟩
  | iterated cf old ps m =>
    obtain ⟨hm, hid, hcf⟩ := hth
    exact ⟨h.applied hm, hid.trans_le h.nextId, (h.cfOf _ hid).trans hcf⟩
  | registered old m => exact h.applied hth
  | completed m => exact h.applied hth
  | failed old m err => exact h.applied hth
  | returned m result => exact fun hok => h.applied (hth hok)

end Grows

namespace SysInv

variable {s : System} {g g' : Ghost} {ms : List Mutation} {i : Nat} {th' : Thread} {e : Store}

theorem frozen_set (hi : s.threads[i]? = some th) (hgrow : Grows s g e g')
    (hwrites : ∀ id < s.store.memtables.nextId, th'.writesTo id = true →
      th.writesTo id = true ∨ s.store.memtables.Active id) (hid : id < s.store.memtables.nextId)
    (hfrozen : s.Frozen id) :
    System.Frozen ⟨e, s.threads.set i th'⟩ id := by
  refine ⟨hgrow.inactive id hid hfrozen.1, fun x hx => ?_⟩
  rcases mem_or_eq_of_mem_set hx with hx | rfl
  · exact hfrozen.2 x hx
  · by_contra hx'
    rcases hwrites id hid (by simpa using hx') with hth | hactive
    · exact absurd hth (by simp [hfrozen.2 th (mem_of_getElem? hi)])
    · exact hfrozen.1 hactive

/-- One step of thread `i`, from `th` to `th'`, that brings the engine to `e`: the engine keeps its
operations, and the memtables have a place that the step creates, takes from the active ones or
stops flushing. -/
theorem advance (inv : SysInv s g ms) (hi : s.threads[i]? = some th) (hgrow : Grows s g e g')
    (hkeeps : Engine.Keeps e g' ms) (hth : th'.Inv e.memtables g' ms)
    (hwrites : ∀ id < s.store.memtables.nextId, th'.writesTo id = true →
      th.writesTo id = true ∨ s.store.memtables.Active id)
    (hiter : ∀ cf old ps m, th' = .iterated cf old ps m → old.id < s.store.memtables.nextId ∧
      s.Frozen old.id ∧ ps = (s.store.memtables.contents old.id).iterPartitions)
    (hflushing : ∀ old, th.flushing? = some old → th'.flushing? = some old ∨
      System.Done ⟨e, s.threads.set i th'⟩ g' old.id)
    (hactive : ∀ id, s.store.memtables.Active id → e.memtables.Active id ∨
      ∃ old, th'.flushing? = some old ∧ old.id = id)
    (hnew : ∀ id, s.store.memtables.nextId ≤ id → id < e.memtables.nextId → e.memtables.Active id) :
    SysInv ⟨e, s.threads.set i th'⟩ g' ms where
  keeps := hkeeps
  threads x hx := by
    rcases mem_or_eq_of_mem_set hx with hx | rfl
    · exact hgrow.threadInv (inv.threads x hx)
    · exact hth
  iterated cf old ps m hx := by
    obtain ⟨hid, hfrozen, hps⟩ : old.id < s.store.memtables.nextId ∧ s.Frozen old.id ∧
        ps = (s.store.memtables.contents old.id).iterPartitions := by
      rcases mem_or_eq_of_mem_set hx with hx | hx
      · exact ⟨(inv.threads _ hx).2.1, inv.iterated cf old ps m hx⟩
      · exact hiter cf old ps m hx.symm
    exact ⟨frozen_set hi hgrow hwrites hid hfrozen, by rw [hps, (hgrow.frozen _ hid hfrozen).1]⟩
  settled id hid := by
    have hself : (s.threads.set i th')[i]? = some th' := by
      rw [List.getElem?_set_self (List.getElem?_eq_some_iff.mp hi).1]
    by_cases hold : id < s.store.memtables.nextId
    · rcases inv.settled id hold with hact | ⟨j, x, old, hj, hx, rfl⟩ | ⟨hfrozen, hops⟩
      · exact (hactive id hact).imp_right fun ⟨old, hold, hid⟩ => .inl ⟨i, th', old, hself, hold, hid⟩
      · by_cases hij : i = j
        · subst hij
          obtain rfl : th = x := Option.some.inj (hi.symm.trans hj)
          exact .inr ((hflushing old hx).imp_left fun h => ⟨i, th', old, hself, h, rfl⟩)
        · exact .inr (.inl ⟨j, x, old, by rw [List.getElem?_set_ne hij, hj], hx, rfl⟩)
      · refine .inr (.inr ⟨frozen_set hi hgrow hwrites hold hfrozen, fun op hop => ?_⟩)
        rw [(hgrow.frozen id hold hfrozen).2] at hop
        obtain ⟨t, ht, hnames, hmem⟩ := hops op hop
        obtain ⟨ht', hflushed⟩ := hgrow.tables t ht
        exact ⟨t, ht', by rw [hnames, hgrow.cfOf id hold], hflushed ▸ hmem⟩
    · exact .inl (hnew id (Nat.le_of_not_lt hold) hid)

end SysInv

/-! ## What the steps do to the engine -/

theorem MemtableManager.getElem?_active_replaceActive (mgr : MemtableManager) (cf : String)
    (segId : Nat) (cf' : String) :
    (mgr.replaceActive cf segId).active[cf']? =
      if cf = cf' then some ⟨mgr.nextId, segId⟩ else mgr.active[cf']? := by
  simp only [replaceActive, createActive, ExtTreeMap.getElem?_insert, Std.compare_eq_iff_eq]

variable {mgr : MemtableManager} {result : Option PartitionData}

theorem MemtableManager.active_replaceActive_of_le (hle : mgr.nextId ≤ id)
    (hlt : id < (mgr.replaceActive cf segId).nextId) :
    (mgr.replaceActive cf segId).Active id := by
  have hlt' : id < mgr.nextId + 1 := hlt
  refine ⟨cf, ⟨mgr.nextId, segId⟩, ?_, Nat.le_antisymm hle (Nat.lt_succ_iff.mp hlt')⟩
  rw [getElem?_active_replaceActive, if_pos rfl]

theorem MemtableManager.active_replaceActive_of_ne {cf' : String} (hmt : mgr.active[cf']? = some mt)
    (hne : cf ≠ cf') :
    (mgr.replaceActive cf segId).Active mt.id := by
  refine ⟨cf', mt, ?_, rfl⟩
  rw [getElem?_active_replaceActive, if_neg hne, hmt]

section

variable {s : System} {g : Ghost} {ms : List Mutation} {e : Store}

/-- The engines agree on memtables and SSTables, up to which memtables are known as flushing. -/
structure Engine.SameData (e e' : Store) : Prop where
  active : e'.memtables.active = e.memtables.active
  nextId : e'.memtables.nextId = e.memtables.nextId
  contents : e'.memtables.contents = e.memtables.contents
  sstables : e'.sstables = e.sstables
  nextGeneration : e.nextGeneration ≤ e'.nextGeneration

theorem Engine.SameData.discardSegments (e : Store) (io : Io) :
    e.SameData (e.discardSegments io) := by
  unfold Engine.discardSegments
  split
  · split
    · exact ⟨rfl, rfl, rfl, rfl, le_rfl⟩
    · exact ⟨rfl, rfl, rfl, rfl, le_rfl⟩
  · exact ⟨rfl, rfl, rfl, rfl, le_rfl⟩

theorem Engine.SameData.active_iff (h : s.store.SameData e) :
    e.memtables.Active id ↔ s.store.memtables.Active id := by
  simp only [MemtableManager.Active, h.active]

theorem Engine.SameData.grows (h : s.store.SameData e) (g : Ghost) : Grows s g e g where
  nextId := h.nextId.ge
  held _ := List.Subset.refl _
  cfOf _ _ := rfl
  inactive id _ hid := by rwa [h.active_iff]
  frozen id _ _ := ⟨by rw [h.contents], rfl⟩
  tables t ht := ⟨h.sstables ▸ ht, rfl⟩

theorem Engine.SameData.keeps (h : s.store.SameData e) (hk : s.store.Keeps g ms) :
    Engine.Keeps e g ms where
  records id := by rw [h.contents]; exact hk.records id
  fresh id hid := hk.fresh id (by rwa [h.nextId] at hid)
  active cf mt hmt := by
    rw [h.active] at hmt
    rw [h.nextId]
    exact hk.active cf mt hmt
  origin := hk.origin
  gens t ht := (hk.gens t (h.sstables ▸ ht)).trans_le h.nextGeneration
  tables t ht := hk.tables t (h.sstables ▸ ht)
  tables_origin t ht := hk.tables_origin t (h.sstables ▸ ht)

/-- The ghost state after a memtable of column family `cf` was created. -/
def Ghost.create (g : Ghost) (mgr : MemtableManager) (cf : String) : Ghost :=
  { g with cfOf := Function.update g.cfOf mgr.nextId cf }

theorem Engine.Keeps.replaceActive (hk : s.store.Keeps g ms) (cf : String) (segId : Nat) :
    Engine.Keeps { s.store with memtables := s.store.memtables.replaceActive cf segId }
      (g.create s.store.memtables cf) ms where
  records id := by
    simp only [MemtableManager.replaceActive, MemtableManager.createActive, Ghost.create]
    by_cases hid : id = s.store.memtables.nextId
    · subst hid
      rw [Function.update_self, hk.fresh _ le_rfl]
      exact MemtableData.records_empty
    · rw [Function.update_of_ne hid]
      exact hk.records id
  fresh id hid := hk.fresh id ((Nat.le_succ _).trans hid)
  active cf' mt hmt := by
    rw [MemtableManager.getElem?_active_replaceActive] at hmt
    split at hmt
    · next hcf =>
      obtain rfl := Option.some.inj hmt
      exact ⟨Nat.lt_succ_self _, by simp [Ghost.create, hcf]⟩
    · obtain ⟨hlt, hcf⟩ := hk.active cf' mt hmt
      exact ⟨Nat.lt_succ_of_lt hlt, by simp [Ghost.create, Nat.ne_of_lt hlt, hcf]⟩
  origin id op hop := by
    by_cases hid : id < s.store.memtables.nextId
    · simpa [Ghost.create, Nat.ne_of_lt hid] using hk.origin id op hop
    · have hnil := hk.fresh id (Nat.le_of_not_lt hid)
      simp [Ghost.create, hnil] at hop
  gens := hk.gens
  tables := hk.tables
  tables_origin := hk.tables_origin

theorem Grows.replaceActive (s : System) (g : Ghost) (cf : String) (segId : Nat) :
    Grows s g { s.store with memtables := s.store.memtables.replaceActive cf segId }
      (g.create s.store.memtables cf) where
  nextId := Nat.le_succ _
  held _ := List.Subset.refl _
  cfOf id hid := by simp [Ghost.create, Nat.ne_of_lt hid]
  inactive id hid hact := by
    rintro ⟨cf', mt, hmt, rfl⟩
    rw [MemtableManager.getElem?_active_replaceActive] at hmt
    split at hmt
    · obtain rfl := Option.some.inj hmt
      exact Nat.lt_irrefl _ hid
    · exact hact ⟨cf', mt, hmt, rfl⟩
  frozen id hid _ := by
    simp [MemtableManager.replaceActive, MemtableManager.createActive, Ghost.create,
      Nat.ne_of_lt hid]
  tables t ht := ⟨ht, rfl⟩

/-- The ghost state after an operation on the partition `pk` reached a memtable. -/
def Ghost.write (g : Ghost) (id : Nat) (pk : Bytes) (w : Write) : Ghost :=
  { g with held := Function.update g.held id (g.held id ++ [(pk, w)]) }

theorem Ghost.mem_held_write {id' : Nat} {pk : Bytes} {op : Bytes × Write} :
    op ∈ (g.write id pk w).held id' ↔ op ∈ g.held id' ∨ id' = id ∧ op = (pk, w) := by
  by_cases hid : id' = id
  · subst hid
    simp [Ghost.write]
  · simp [Ghost.write, hid]

theorem Engine.Keeps.write (hk : s.store.Keeps g ms) (hm : m ∈ ms)
    (hid : mt.id < s.store.memtables.nextId) (hcf : g.cfOf mt.id = m.cfName) (hw : w ∈ m.writes) :
    Engine.Keeps { s.store with memtables := s.store.memtables.write mt m.partitionKey [w] }
      (g.write mt.id m.partitionKey w) ms where
  records id := by
    simp only [MemtableManager.write, Ghost.write]
    by_cases hid' : id = mt.id
    · subst hid'
      simpa using (hk.records mt.id).writeAll m.partitionKey [w]
    · rw [Function.update_of_ne hid', Function.update_of_ne hid']
      exact hk.records id
  fresh id hle := by
    have hne : id ≠ mt.id := by
      rintro rfl
      exact absurd hid (Nat.not_lt.mpr hle)
    simpa [Ghost.write, hne] using hk.fresh id hle
  active := hk.active
  origin id op hop := by
    rcases Ghost.mem_held_write.mp hop with hop | ⟨rfl, rfl⟩
    · exact hk.origin id op hop
    · exact ⟨m, hm, hcf.symm, mem_map_of_mem hw⟩
  gens := hk.gens
  tables := hk.tables
  tables_origin := hk.tables_origin

theorem Grows.write (hth : th ∈ s.threads) (hwrites : th.writesTo mt.id = true)
    (pk : Bytes) (w : Write) :
    Grows s g { s.store with memtables := s.store.memtables.write mt pk [w] }
      (g.write mt.id pk w) where
  nextId := le_rfl
  held id op hop := Ghost.mem_held_write.mpr (.inl hop)
  cfOf _ _ := rfl
  inactive _ _ hact := hact
  frozen id _ hfrozen := by
    have hne : id ≠ mt.id := by
      rintro rfl
      exact absurd hwrites (by simp [hfrozen.2 th hth])
    simp [MemtableManager.write, Ghost.write, hne]
  tables t ht := ⟨ht, rfl⟩

/-- The ghost state after the memtable `id` became the SSTable of the next generation. -/
def Ghost.register (g : Ghost) (e : Store) (id : Nat) : Ghost :=
  { g with flushed := Function.update g.flushed e.nextGeneration (g.held id) }

theorem Engine.Keeps.flushed_register (hk : s.store.Keeps g ms) {t : SSTable}
    (ht : t ∈ s.store.sstables) (id : Nat) :
    (g.register s.store id).flushed t.generation = g.flushed t.generation := by
  simp [Ghost.register, Nat.ne_of_lt (hk.gens t ht)]

theorem Engine.Keeps.register (hk : s.store.Keeps g ms) (old : Memtable) :
    Engine.Keeps (s.store.register (s.store.tableOf (g.cfOf old.id) old))
      (g.register s.store old.id) ms where
  records := hk.records
  fresh := hk.fresh
  active := hk.active
  origin := hk.origin
  gens t ht := by
    rcases mem_append.mp ht with ht | ht
    · exact Nat.lt_succ_of_lt (hk.gens t ht)
    · obtain rfl := mem_singleton.mp ht
      exact Nat.lt_succ_self _
  tables t ht := by
    rcases mem_append.mp ht with ht | ht
    · rw [hk.flushed_register ht]
      exact hk.tables t ht
    · obtain rfl := mem_singleton.mp ht
      simpa [Ghost.register, Store.tableOf] using (hk.records old.id).sstable _ _ _
  tables_origin t ht := by
    rcases mem_append.mp ht with ht | ht
    · rw [hk.flushed_register ht]
      exact hk.tables_origin t ht
    · obtain rfl := mem_singleton.mp ht
      refine ⟨g.cfOf old.id, rfl, fun op hop => hk.origin old.id op ?_⟩
      simpa [Ghost.register, Store.tableOf] using hop

theorem Engine.Keeps.grows_register (hk : s.store.Keeps g ms) (old : Memtable) :
    Grows s g (s.store.register (s.store.tableOf (g.cfOf old.id) old))
      (g.register s.store old.id) where
  nextId := le_rfl
  held _ := List.Subset.refl _
  cfOf _ _ := rfl
  inactive _ _ hact := hact
  frozen _ _ _ := ⟨rfl, rfl⟩
  tables _ ht := ⟨mem_append_left _ ht, hk.flushed_register ht old.id⟩

end

/-! ## One step -/

namespace SysInv

variable {s : System} {g : Ghost} {ms : List Mutation} {i : Nat} {ext : LogExternal} {io : Io}

theorem advance_same (inv : SysInv s g ms) {th' : Thread} {e : Store}
    (hi : s.threads[i]? = some th) (hsame : s.store.SameData e)
    (hth : th'.Inv s.store.memtables g ms) (hwrites : ∀ id, th'.writesTo id = false)
    (hiter : ∀ cf old ps m, th' = .iterated cf old ps m → old.id < s.store.memtables.nextId ∧
      s.Frozen old.id ∧ ps = (s.store.memtables.contents old.id).iterPartitions)
    (hflushing : ∀ old, th.flushing? = some old → th'.flushing? = some old ∨
      System.Done ⟨e, s.threads.set i th'⟩ g old.id) :
    SysInv ⟨e, s.threads.set i th'⟩ g ms := by
  refine inv.advance hi (hsame.grows g) (hsame.keeps inv.keeps) ((hsame.grows g).threadInv hth)
    (fun id _ h => absurd h (by simp [hwrites id])) hiter hflushing ?_ ?_
  · exact fun id hid => .inl (hsame.active_iff.mpr hid)
  · intro id hle hlt
    rw [hsame.nextId] at hlt
    exact absurd hlt (Nat.not_lt.mpr hle)

/-- The system after thread `i` has taken the step `r`. -/
def after (s : System) (i : Nat) (r : Store × Thread) : System := ⟨r.1, s.threads.set i r.2⟩

section

variable (inv : SysInv s g ms)

include inv

/-- The writer gets the active memtable of its column family. -/
theorem step_logged (hi : s.threads[i]? = some (.logged m segId)) :
    ∃ g', SysInv (after s i (step ext io s.store (.logged m segId))) g' ms := by
  have hm : m ∈ ms := inv.threads _ (mem_of_getElem? hi)
  rw [step]
  cases hactive : s.store.memtables.active[m.cfName]? with
  | some mt =>
    have heq : s.store.memtables.getOrCreate m.cfName segId = (mt, s.store.memtables) := by
      simp [getOrCreate, hactive]
    obtain ⟨hid, hcf⟩ := inv.keeps.active _ _ hactive
    rw [heq]
    refine ⟨g, inv.advance hi (Engine.SameData.grows ⟨rfl, rfl, rfl, rfl, le_rfl⟩ g) inv.keeps
      ⟨hm, hid, hcf, [], rfl, by simp⟩ (fun id _ h => ?_) (by simp) (by simp [flushing?])
      (fun id h => .inl h) fun id hle hlt => absurd hlt (Nat.not_lt.mpr hle)⟩
    obtain ⟨rfl, -⟩ : mt.id = id ∧ _ := by simpa [writesTo] using h
    exact .inr ⟨_, mt, hactive, rfl⟩
  | none =>
    rw [getOrCreate_eq_of_none hactive]
    refine ⟨_, inv.advance hi (.replaceActive s g m.cfName segId)
      (inv.keeps.replaceActive m.cfName segId) ⟨hm, Nat.lt_succ_self _, ?_, [], rfl, by simp⟩
      (fun id hlt h => ?_) (by simp) (by simp [flushing?]) ?_
      fun _ hle hlt => active_replaceActive_of_le hle hlt⟩
    · simp [Ghost.create]
    · obtain ⟨rfl, -⟩ : s.store.memtables.nextId = id ∧ _ := by simpa [writesTo] using h
      exact absurd hlt (Nat.lt_irrefl _)
    · rintro id ⟨cf, mt, hmt, rfl⟩
      refine .inl (active_replaceActive_of_ne hmt ?_)
      rintro rfl
      exact absurd hmt (by simp [hactive])

/-- The writer applies one operation. -/
theorem step_writing {rest : List Write} (hi : s.threads[i]? = some (.writing m mt (w :: rest))) :
    ∃ g', SysInv (after s i (step ext io s.store (.writing m mt (w :: rest)))) g' ms := by
  have hmem := mem_of_getElem? hi
  obtain ⟨hm, hid, hcf, done, hwrites, hdone⟩ := inv.threads _ hmem
  have hw : w ∈ m.writes := by simp [hwrites]
  have hwriter : (writing m mt (w :: rest)).writesTo mt.id = true := by
    simp [writesTo]
  have hth : (writing m mt rest).Inv s.store.memtables (g.write mt.id m.partitionKey w) ms := by
    refine ⟨hm, hid, hcf, done ++ [w], by simp [hwrites], fun w' hw' => ?_⟩
    rw [Ghost.mem_held_write]
    rcases mem_append.mp hw' with hw' | hw'
    · exact .inl (hdone w' hw')
    · exact .inr ⟨rfl, by rw [mem_singleton.mp hw']⟩
  rw [step]
  refine ⟨_, inv.advance hi (.write hmem hwriter m.partitionKey w) (inv.keeps.write hm hid hcf hw)
    hth (fun id _ h => .inl ?_) nofun nofun (fun id h => .inl h)
    fun id hle hlt => absurd hlt (Nat.not_lt.mpr hle)⟩
  obtain ⟨rfl, -⟩ : mt.id = id ∧ _ := by simpa [writesTo] using h
  exact hwriter

theorem step_applied (hi : s.threads[i]? = some (.writing m mt [])) :
    SysInv (after s i (step ext io s.store (.writing m mt []))) g ms := by
  obtain ⟨hm, hid, hcf, done, hwrites, hdone⟩ := inv.threads _ (mem_of_getElem? hi)
  have happlied : Applied s.store.memtables g ms (some m) := by
    rintro _ ⟨⟩
    refine ⟨hm, mt.id, hid, hcf, fun op hop => ?_⟩
    obtain ⟨w, hw, rfl⟩ := mem_map.mp hop
    exact hdone w (by simpa [hwrites] using hw)
  rw [step]
  by_cases hfull : s.store.memtables.shouldFlush
  · rw [if_pos hfull]
    exact inv.advance_same hi ⟨rfl, rfl, rfl, rfl, le_rfl⟩ happlied (fun _ => rfl) nofun nofun
  · rw [if_neg hfull]
    exact inv.advance_same hi ⟨rfl, rfl, rfl, rfl, le_rfl⟩ (fun _ => happlied) (fun _ => rfl) nofun
      nofun

variable {m : Option Mutation}

/-- A flush switches the memtable. -/
theorem step_flush (hi : s.threads[i]? = some (.flush cf m)) :
    ∃ g', SysInv (after s i (step ext io s.store (.flush cf m))) g' ms := by
  have hm : Applied s.store.memtables g ms m := inv.threads _ (mem_of_getElem? hi)
  have hgrow := Grows.replaceActive s g cf s.store.commitlog.current.id
  have hkeeps := inv.keeps.replaceActive cf s.store.commitlog.current.id
  rw [step, switchMemtable_eq]
  cases hold : s.store.memtables.active[cf]? with
  | none =>
    refine ⟨_, inv.advance hi hgrow hkeeps (fun _ => hgrow.applied hm) (fun _ _ h => nomatch h)
      nofun nofun ?_ fun _ hle hlt => active_replaceActive_of_le hle hlt⟩
    rintro id ⟨cf', mt, hmt, rfl⟩
    refine .inl (active_replaceActive_of_ne hmt ?_)
    rintro rfl
    exact absurd hmt (by simp [hold])
  | some old =>
    obtain ⟨hid, hcf⟩ := inv.keeps.active _ _ hold
    refine ⟨_, inv.advance hi hgrow hkeeps ⟨hgrow.applied hm, Nat.lt_succ_of_lt hid, ?_,
      (hgrow.cfOf _ hid).trans hcf⟩ (fun _ _ h => nomatch h) nofun nofun ?_
      fun _ hle hlt => active_replaceActive_of_le hle hlt⟩
    · -- the memtable that was switched out is active under no other name
      rintro ⟨cf', mt, hmt, hid'⟩
      rw [getElem?_active_replaceActive] at hmt
      split at hmt
      · obtain rfl := Option.some.inj hmt
        exact absurd hid (by rw [← hid']; exact Nat.lt_irrefl _)
      · next hne => exact hne (by rw [← hcf, ← hid', (inv.keeps.active _ _ hmt).2])
    · rintro id ⟨cf', mt, hmt, rfl⟩
      by_cases hne : cf = cf'
      · subst hne
        obtain rfl : mt = old := Option.some.inj (hmt.symm.trans hold)
        exact .inr ⟨mt, rfl, rfl⟩
      · exact .inl (active_replaceActive_of_ne hmt hne)

theorem step_switched {old : Memtable}
    (hi : s.threads[i]? = some (.switched cf old m)) (hquiet : s.Quiet i) :
    SysInv (after s i (step ext io s.store (.switched cf old m))) g ms := by
  obtain ⟨hm, hid, hactive, hcf⟩ := inv.threads _ (mem_of_getElem? hi)
  have hfrozen : s.Frozen old.id := by
    refine ⟨hactive, fun th hth => hquiet old ?_ th hth⟩
    simp [hi, iterates?]
  rw [step]
  refine inv.advance_same hi ⟨rfl, rfl, rfl, rfl, le_rfl⟩ ⟨hm, hid, hcf⟩ (fun _ => rfl) ?_
    fun _ h => .inl h
  rintro _ _ _ _ ⟨⟩
  exact ⟨hid, hfrozen, rfl⟩

/-- The SSTable is written and registered. -/
theorem step_iterated {old : Memtable} {ps : List (Bytes × PartitionData)}
    (hi : s.threads[i]? = some (.iterated cf old ps m)) :
    ∃ g', SysInv (after s i (step ext io s.store (.iterated cf old ps m))) g' ms := by
  have hmem := mem_of_getElem? hi
  obtain ⟨hm, hid, rfl⟩ := inv.threads _ hmem
  obtain ⟨hfrozen, rfl⟩ := inv.iterated _ _ _ _ hmem
  rw [step]
  by_cases hempty : (s.store.memtables.contents old.id).iterPartitions = []
  · have hsame : s.store.SameData (s.store.flushComplete old.id) := ⟨rfl, rfl, rfl, rfl, le_rfl⟩
    rw [if_pos (by simp [hempty])]
    refine ⟨g, inv.advance_same hi hsame (fun _ => hm) (fun _ => rfl) nofun ?_⟩
    rintro _ ⟨⟩
    refine .inr ⟨frozen_set hi (hsame.grows g) ?_ hid hfrozen, ?_⟩
    · exact fun _ _ h => nomatch h
    · simp [(inv.keeps.records old.id).eq_nil hempty]
  · rw [if_neg (by simpa using hempty), StoreInv.writeSSTable_eq]
    by_cases hfails : io.writeFails
    · rw [if_pos hfails]
      exact ⟨g, inv.advance_same hi ⟨rfl, rfl, rfl, rfl, Nat.le_succ _⟩ hm (fun _ => rfl) nofun
        fun _ h => .inl h⟩
    · have hgrow := inv.keeps.grows_register old
      rw [if_neg hfails]
      refine ⟨_, inv.advance hi hgrow (inv.keeps.register old) (hgrow.applied hm)
        (fun _ _ h => nomatch h) nofun ?_ (fun id h => .inl h)
        fun id hle hlt => absurd hlt (Nat.not_lt.mpr hle)⟩
      rintro _ ⟨⟩
      refine .inr ⟨frozen_set hi hgrow ?_ hid hfrozen, fun op hop => ?_⟩
      · exact fun _ _ h => nomatch h
      · refine ⟨_, mem_append_right _ (mem_singleton.mpr rfl), rfl, ?_⟩
        simpa [Ghost.register, Store.tableOf] using hop

/-- A quiet step keeps the invariant. -/
theorem step (hquiet : s.Quiet i) : ∃ g', SysInv (s.step ext i io) g' ms := by
  cases hi : s.threads[i]? with
  | none => exact ⟨g, by rw [System.step, hi]; exact inv⟩
  | some th =>
    have hstep : s.step ext i io = after s i (th.step ext io s.store) := by
      simp only [System.step, hi, after]
    have hth := inv.threads _ (mem_of_getElem? hi)
    rw [hstep]
    cases th with
    | apply m =>
      rw [Thread.step]
      cases happ : s.store.commitlog.append ext m io.cdcUsed with
      | mk log result =>
        cases result with
        | error err =>
          exact ⟨g, inv.advance_same hi ⟨rfl, rfl, rfl, rfl, le_rfl⟩ nofun (fun _ => rfl) nofun nofun⟩
        | ok r =>
          exact ⟨g, inv.advance_same hi ⟨rfl, rfl, rfl, rfl, le_rfl⟩ hth (fun _ => rfl) nofun nofun⟩
    | logged m segId => exact inv.step_logged hi
    | writing m mt rest =>
      cases rest with
      | nil => exact ⟨g, inv.step_applied hi⟩
      | cons w rest => exact inv.step_writing hi
    | flush cf m => exact inv.step_flush hi
    | switched cf old m => exact ⟨g, inv.step_switched hi hquiet⟩
    | iterated cf old ps m => exact inv.step_iterated hi
    | registered | returned =>
      exact ⟨g, inv.advance_same hi ⟨rfl, rfl, rfl, rfl, le_rfl⟩ hth (fun _ => rfl) nofun nofun⟩
    | completed m =>
      exact ⟨g, inv.advance_same hi (.discardSegments s.store io) (fun _ => hth) (fun _ => rfl)
        nofun nofun⟩
    | failed old m err =>
      exact ⟨g, inv.advance_same hi ⟨rfl, rfl, rfl, rfl, le_rfl⟩ hth (fun _ => rfl) nofun
        fun _ h => .inl h⟩

end

attribute [local simp] Engine.openEngine

/-- Calls that have not begun, over an empty engine. -/
theorem new {threads : List Thread} (hstarts : ∀ th ∈ threads, th.Starts)
    (config : CommitLogConfig) (flushThreshold : Nat) :
    SysInv (System.new config flushThreshold threads) ⟨fun _ => [], fun _ => [], fun _ => ""⟩
      (threads.filterMap mutation?) where
  keeps := {
    records := fun _ => MemtableData.records_empty
    fresh := fun _ _ => rfl
    active := by simp [System.new, Store.new, MemtableManager.new]
    origin := by simp
    gens := by simp [System.new, Store.new]
    tables := by simp [System.new, Store.new]
    tables_origin := by simp [System.new, Store.new] }
  threads th hth := by
    have hstart := hstarts th hth
    cases th with
    | apply m => exact mem_filterMap.mpr ⟨_, hth, rfl⟩
    | flush cf m =>
      obtain rfl : m = none := hstart
      rintro _ ⟨⟩
    | _ => exact hstart.elim
  iterated cf old ps m hth := (hstarts _ hth).elim
  settled id _ := by
    refine .inr (.inr ⟨⟨?_, fun th hth => ?_⟩, by simp⟩)
    · rintro ⟨cf, mt, hmt, -⟩
      simp [System.new, Store.new, MemtableManager.new] at hmt
    · have hstart := hstarts th hth
      cases th with
      | writing m mt rest => exact hstart.elim
      | _ => rfl

theorem run (inv : SysInv s g ms) {schedule : List (Nat × Io)}
    (hquiet : s.QuietRun ext schedule) : ∃ g', SysInv (s.run ext schedule) g' ms := by
  induction schedule generalizing s g with
  | nil => exact ⟨g, inv⟩
  | cons x schedule ih =>
    obtain ⟨g', inv'⟩ := inv.step hquiet.1
    exact ih inv' hquiet.2

/-- What the active memtable of a column family holds. -/
theorem exists_active (inv : SysInv s g ms) (cf : String) :
    ∃ l : Ledger, (s.store.memtables.activeData cf).Records l ∧
      (∀ op ∈ l, ∃ m ∈ ms, m.cfName = cf ∧ op ∈ m.ops) ∧
      ∀ id, s.store.memtables.Active id → g.cfOf id = cf → l = g.held id := by
  unfold activeData
  cases hactive : s.store.memtables.active[cf]? with
  | none =>
    refine ⟨[], MemtableData.records_empty, by simp, ?_⟩
    rintro id ⟨cf', mt, hmt, rfl⟩ hcf
    rw [← hcf, (inv.keeps.active _ _ hmt).2, hmt] at hactive
    exact absurd hactive (by simp)
  | some mt =>
    have hcf := (inv.keeps.active _ _ hactive).2
    refine ⟨g.held mt.id, inv.keeps.records mt.id, fun op hop => ?_, ?_⟩
    · obtain ⟨m, hm, hname, hop⟩ := inv.keeps.origin _ op hop
      exact ⟨m, hm, hname.trans hcf, hop⟩
    · rintro id ⟨cf', mt', hmt', rfl⟩ hcf'
      rw [(inv.keeps.active _ _ hmt').2] at hcf'
      rw [hcf', hactive] at hmt'
      rw [Option.some.inj hmt']

/-- After the flushes, a read shows all that the memtables of its column family have held, and
nothing but what was written. -/
theorem shows_read (inv : SysInv s g ms) (hflushed : s.Flushed)
    (hdist : ∀ m ∈ ms, ∀ w ∈ m.writes, w.DistinctColumns) {keyspace : String}
    (hks : '.' ∉ keyspace.toList) (table : String) (pk : Bytes) :
    ∃ ws, Shows (s.store.read keyspace table pk) ws ∧
      (∀ w ∈ ws, w ∈ writesOn ms (keyspace ++ "." ++ table) pk) ∧
      ∀ id < s.store.memtables.nextId, g.cfOf id = keyspace ++ "." ++ table →
        ∀ w, (pk, w) ∈ g.held id → w ∈ ws := by
  obtain ⟨mem, hmem, horigin, hactive⟩ := inv.exists_active (keyspace ++ "." ++ table)
  have hdist' : ∀ {l : Ledger} {cf : String}, (∀ op ∈ l, ∃ m ∈ ms, m.cfName = cf ∧ op ∈ m.ops) →
      l.DistinctColumns := by
    intro l cf hl op hop
    obtain ⟨m, hm, -, hop⟩ := hl op hop
    obtain ⟨w, hw, rfl⟩ := mem_map.mp hop
    exact hdist m hm w hw
  have hwritesOn : ∀ {cf : String} {w : Write}, (∃ m ∈ ms, m.cfName = cf ∧ (pk, w) ∈ m.ops) →
      w ∈ writesOn ms cf pk := by
    rintro cf w ⟨m, hm, hcf, hop⟩
    obtain ⟨w', hw', heq⟩ := mem_map.mp hop
    obtain ⟨hpk, rfl⟩ : m.partitionKey = pk ∧ w' = w := by simpa using heq
    exact mem_flatMap.mpr ⟨m, mem_filter.mpr ⟨hm, by simp [hcf, hpk]⟩, hw'⟩
  have htables : ∀ t ∈ s.store.sstables, t.Records (g.flushed t.generation) ∧
      (g.flushed t.generation).DistinctColumns := by
    intro t ht
    obtain ⟨cf, -, hcf⟩ := inv.keeps.tables_origin t ht
    exact ⟨inv.keeps.tables t ht, hdist' hcf⟩
  refine ⟨_, shows_read_of_records hmem (hdist' horigin) htables, fun w hw => ?_, ?_⟩
  · rcases mem_append.mp hw with hw | hw
    · exact hwritesOn (horigin _ (Ledger.mem_writesTo.mp hw))
    · obtain ⟨t, ht, hkeyspace, htable, hw⟩ := mem_tableWrites.mp hw
      obtain ⟨cf, hnames, hcf⟩ := inv.keeps.tables_origin t (mem_reverse.mp ht)
      obtain ⟨m, hm, rfl, hop⟩ := hcf _ (Ledger.mem_writesTo.mp hw)
      have hjoin : (splitCfName m.cfName).1 ++ "." ++ (splitCfName m.cfName).2 = m.cfName :=
        (splitCfName_spec _ _).2
      rw [← hnames, hkeyspace, htable] at hjoin
      exact hwritesOn ⟨m, hm, hjoin.symm, hop⟩
  · intro id hid hcf w hw
    rw [mem_append, mem_tableWrites]
    rcases inv.settled id hid with hact | ⟨j, th, old, hj, hth, -⟩ | ⟨-, hdone⟩
    · exact .inl (Ledger.mem_writesTo.mpr (by rwa [hactive id hact hcf]))
    · exact absurd hth (by simp [hflushed th (mem_of_getElem? hj)])
    · obtain ⟨t, ht, hnames, hop⟩ := hdone _ hw
      rw [hcf, splitCfName_cfName hks, Prod.mk.injEq] at hnames
      exact .inr ⟨t, mem_reverse.mpr ht, hnames.1, hnames.2, Ledger.mem_writesTo.mpr hop⟩

end SysInv

/-! ## Visibility -/

end CassandraVerified.Storage
