import CassandraVerified.Storage.Proofs.StoreProofs

/-!
# Proofs: what a flush changes

Over any layer of SSTables.
-/

namespace CassandraVerified.Storage

open MemtableManager

variable {T C : Type}

@[simp] theorem MemtableData.getPartition_empty (pk : Bytes) : empty.getPartition pk = none := by
  simp [getPartition, empty]

/-- Memtables have been numbered before. -/
def MemtableManager.Numbered (mgr : MemtableManager) : Prop :=
  ∀ (cfName : String) (mt : Memtable), mgr.active[cfName]? = some mt → mt.id < mgr.nextId

namespace MemtableManager

variable {mgr : MemtableManager}

section

variable (h : mgr.Numbered)

include h

theorem activeData_replaceActive (cfName cfName' : String) (segId : Nat) :
    (mgr.replaceActive cfName segId).activeData cfName' =
      if cfName = cfName' then .empty else mgr.activeData cfName' := by
  unfold activeData
  simp only [replaceActive, createActive, Std.ExtTreeMap.getElem?_insert, Std.compare_eq_iff_eq]
  by_cases hcf : cfName = cfName'
  · simp [hcf]
  · rw [if_neg hcf, if_neg hcf]
    cases hmt : mgr.active[cfName']? with
    | none => rfl
    | some mt => exact Function.update_of_ne (Nat.ne_of_lt (h cfName' mt hmt)) _ _

theorem Numbered.replaceActive (cfName : String) (segId : Nat) :
    (mgr.replaceActive cfName segId).Numbered := by
  intro cf mt hmt
  simp only [MemtableManager.replaceActive, createActive, Std.ExtTreeMap.getElem?_insert,
    Std.compare_eq_iff_eq] at hmt ⊢
  split at hmt
  · cases hmt
    exact Nat.lt_succ_self _
  · exact Nat.lt_succ_of_lt (h cf mt hmt)

theorem contents_replaceActive {cfName : String} {old : Memtable}
    (hold : mgr.active[cfName]? = some old) (segId : Nat) :
    (mgr.replaceActive cfName segId).contents old.id = mgr.activeData cfName := by
  have hne : old.id ≠ mgr.nextId := Nat.ne_of_lt (h cfName old hold)
  simp only [MemtableManager.replaceActive, createActive, activeData, hold]
  exact Function.update_of_ne hne _ _

theorem activeData_getOrCreate (cfName cfName' : String) (segId : Nat) :
    (mgr.getOrCreate cfName segId).2.activeData cfName' = mgr.activeData cfName' := by
  unfold getOrCreate
  cases hold : mgr.active[cfName]? with
  | some mt => rfl
  | none =>
    have hfresh := activeData_replaceActive h cfName cfName' segId
    have hsame : (mgr.createActive cfName segId).activeData cfName' =
        (mgr.replaceActive cfName segId).activeData cfName' := rfl
    rw [hsame, hfresh]
    split
    · next hcf => rw [← hcf, activeData, hold]
    · rfl

theorem Numbered.getOrCreate (cfName : String) (segId : Nat) :
    (mgr.getOrCreate cfName segId).2.Numbered := by
  unfold MemtableManager.getOrCreate
  cases mgr.active[cfName]? with
  | some mt => exact h
  | none => exact h.replaceActive cfName segId

end

end MemtableManager

namespace Engine

variable {layer : SSTableLayer T C} {e e' : Engine T C} {cfName : String} {io : Io}

/-- What a flush has changed: the memtable is empty, and there are the SSTables `new`. -/
structure FlushedTo (e e' : Engine T C) (cfName : String) (new : List T) : Prop where
  cache : e'.cache = e.cache
  memtables : ∀ cf, e'.memtables.activeData cf =
    if cfName = cf then .empty else e.memtables.activeData cf
  numbered : e'.memtables.Numbered
  sstables : e'.sstables = e.sstables ++ new
  generation : e.nextGeneration ≤ e'.nextGeneration

theorem discardSegments_eq (e : Engine T C) (io : Io) :
    e.discardSegments io = { e with commitlog := (e.discardSegments io).commitlog } := by
  unfold discardSegments
  split
  · split <;> rfl
  · rfl

/-- A flush switches the memtable. It then fails to write the SSTable, has nothing to write, or
writes the SSTable. -/
theorem flushCf_cases (hnum : e.memtables.Numbered) {result : Except EngineError Unit}
    (h : e.flushCf layer cfName io = (e', result)) :
    (result ≠ .ok () ∧ e.FlushedTo e' cfName []) ∨
      (result = .ok () ∧ (e.memtables.activeData cfName).iterPartitions = [] ∧
        e.FlushedTo e' cfName [] ∧ e'.nextGeneration = e.nextGeneration) ∨
      (result = .ok () ∧ (e.memtables.activeData cfName).iterPartitions ≠ [] ∧
        e'.nextGeneration = e.nextGeneration + 1 ∧
        ∃ t, layer.create (splitCfName cfName).1 (splitCfName cfName).2 e.nextGeneration
          (e.memtables.activeData cfName).iterPartitions = .ok t ∧ e.FlushedTo e' cfName [t]) := by
  rw [flushCf, switchMemtable_eq] at h
  have hdata := fun cf => activeData_replaceActive hnum cfName cf e.commitlog.current.id
  have hnum' := hnum.replaceActive cfName e.commitlog.current.id
  cases hold : e.memtables.active[cfName]? with
  | none =>
    simp only [hold] at h
    cases h
    have hempty : (e.memtables.activeData cfName).iterPartitions = [] := by
      simp only [MemtableManager.activeData, hold]
      rfl
    exact .inr (.inl ⟨rfl, hempty, ⟨rfl, hdata, hnum', (List.append_nil _).symm, le_rfl⟩, rfl⟩)
  | some old =>
    have hcontents := contents_replaceActive hnum hold e.commitlog.current.id
    simp only [hold, flushMemtable, hcontents] at h
    split at h
    · next hempty =>
      cases h
      exact .inr (.inl ⟨rfl, by simpa using hempty,
        ⟨rfl, hdata, hnum', (List.append_nil _).symm, le_rfl⟩, rfl⟩)
    · next hne =>
      unfold writeSSTable at h
      split at h
      · next hwrite =>
        split at hwrite <;> cases hwrite
        cases h
        exact .inl ⟨nofun, rfl, hdata, hnum', (List.append_nil _).symm, Nat.le_succ _⟩
      · next hwrite =>
        split at hwrite
        · cases hwrite
        · next t hcreate =>
          cases hwrite
          rw [discardSegments_eq] at h
          cases h
          have hcreated : layer.create (splitCfName cfName).1 (splitCfName cfName).2
              e.nextGeneration (e.memtables.activeData cfName).iterPartitions = .ok t := by
            split at hcreate
            · cases hcreate
            · exact hcreate
          exact .inr (.inr ⟨rfl, by simpa using hne, rfl, t, hcreated, rfl, hdata, hnum', rfl,
            Nat.le_succ _⟩)

theorem active_flushCf (layer : SSTableLayer T C) (e : Engine T C) (cfName : String) (io : Io) :
    (e.flushCf layer cfName io).1.memtables.active =
        (e.memtables.replaceActive cfName e.commitlog.current.id).active ∧
      (e.flushCf layer cfName io).1.memtables.nextId =
        (e.memtables.replaceActive cfName e.commitlog.current.id).nextId := by
  rw [flushCf, switchMemtable_eq]
  cases e.memtables.active[cfName]? with
  | none => exact ⟨rfl, rfl⟩
  | some old =>
    simp only [flushMemtable]
    split
    · exact ⟨rfl, rfl⟩
    · unfold writeSSTable
      split
      · next hwrite =>
        split at hwrite <;> cases hwrite
        exact ⟨rfl, rfl⟩
      · next hwrite =>
        split at hwrite <;> cases hwrite
        rw [discardSegments_eq]
        exact ⟨rfl, rfl⟩

theorem flushCf_of_create (hnum : e.memtables.Numbered) (hfails : io.writeFails = false) {t : T}
    (hcreate : layer.create (splitCfName cfName).1 (splitCfName cfName).2 e.nextGeneration
      (e.memtables.activeData cfName).iterPartitions = .ok t) :
    (e.flushCf layer cfName io).2 = .ok () := by
  rw [flushCf, switchMemtable_eq]
  cases hold : e.memtables.active[cfName]? with
  | none => rfl
  | some old =>
    have hcontents := contents_replaceActive hnum hold e.commitlog.current.id
    simp only [flushMemtable, hcontents, writeSSTable, hfails, hcreate]
    split <;> rfl

end Engine

end CassandraVerified.Storage
