import CassandraVerified.Storage.Proofs.ConvergenceProofs
import CassandraVerified.Storage.Proofs.DurabilityProofs
import CassandraVerified.Storage.Proofs.ReadProofs

/-!
# Proofs: crash recovery

The reopened commit log keeps the invariant of the log it continues, so that replay delivers at
least what the memtables held and nothing that was never logged. Replayed operations that an SSTable
also holds do no harm: a read shows the set of operations.
-/

namespace CassandraVerified.Storage

open List
open Std (ExtTreeMap)
open Store Mutation CommitLog

variable {cf : String} {w : Write} {m : Mutation}

theorem parseSegmentFilename_segmentFilename {id : Nat} (h : id < 2 ^ 64) :
    parseSegmentFilename (segmentFilename id) = some id := by
  have hne : Nat.toDigits 10 id ≠ [] := Nat.toDigits_ne_nil
  have hdigits : (Nat.toDigits 10 id).all Char.isDigit = true :=
    all_eq_true.mpr fun c hc => Nat.isDigit_of_mem_toDigits (by decide) (by decide) hc
  rw [parseSegmentFilename, segmentNumber?_segmentFilename, Option.bind_some, parseU64]
  simp only [stripPlus_toDigits, Nat.ofDigitChars_ten_toDigits]
  rw [if_pos ⟨hne, hdigits, h⟩]

theorem foldl_max_eq {l : List Nat} {n : Nat} (hle : ∀ k ∈ l, k ≤ n) (hn : n ∈ l) :
    l.foldl max 0 = n := by
  rw [foldl_eq_foldr, ← Nat.bot_eq_zero]
  exact le_antisymm (max_le_of_forall_le l n hle) (le_max_of_le hn le_rfl)

namespace LogInv

variable {ext : LogExternal} {log : CommitLog} {hist : List (Nat × Mutation)} {floor : Nat}

theorem max_parseSegmentFilename (inv : LogInv ext log hist floor) (hid : log.current.id < 2 ^ 64) :
    (log.files.keys.filterMap parseSegmentFilename).foldl max 0 = log.current.id := by
  refine foldl_max_eq (fun k hk => ?_) (mem_filterMap.mpr ?_)
  · obtain ⟨name, hname, hparse⟩ := mem_filterMap.mp hk
    obtain ⟨bytes, hbytes⟩ := Option.isSome_iff_exists.mp
      (ExtTreeMap.mem_iff_isSome_getElem?.mp (ExtTreeMap.mem_keys.mp hname))
    obtain ⟨k', -, hk', rfl, -⟩ := inv.files_known hbytes
    rwa [eq_of_parseSegmentFilename hparse]
  · refine ⟨segmentFilename log.current.id, ?_, parseSegmentFilename_segmentFilename hid⟩
    rw [ExtTreeMap.mem_keys]
    simp [files]

/-- A log that is opened over the files of another has the history of that log. -/
theorem reopen (inv : LogInv ext log hist floor) (hid : log.current.id < 2 ^ 64) :
    LogInv ext (openLog log.config log.files) hist floor := by
  have hopen : openLog log.config log.files =
      { config := log.config
        current := .createWithFlags (log.current.id + 1) log.config.segmentFlags
        nextSegmentId := log.current.id + 2
        dir := log.files
        recyclePool := []
        cdcCurrentSegmentMirrored := false } := by
    simp only [openLog, inv.max_parseSegmentFilename hid]
  have hfresh : payloadsOf ext hist (log.current.id + 1) = [] := payloadsOf_eq_nil fun e he => by
      have hids := inv.ids e he
      omega
  rw [hopen]
  exact {
    next := rfl
    floor_lt := inv.floor_lt.trans (Nat.lt_succ_self _)
    file := by simp [Segment.createWithFlags, segmentBytes, hfresh, recordsOf]
    size := by simp [Segment.createWithFlags]
    flags := rfl
    writable := rfl
    closed := fun k hk hlt => inv.files_closed hk (Nat.lt_succ_iff.mp hlt)
    known := fun name bytes h =>
      let ⟨k, h1, hk, hname, hbytes⟩ := inv.files_known h
      ⟨k, h1, Nat.lt_succ_of_le hk, hname, hbytes⟩
    pool := by simp
    ids := fun e he => ⟨(inv.ids e he).1, (inv.ids e he).2.trans (Nat.le_succ _)⟩
    sorted := inv.sorted
    encodes := inv.encodes }

end LogInv

/-- The active memtable of each column family has received the operations of its ledger. -/
structure MemtableManager.Tracks (mgr : MemtableManager) (ledger : String → Ledger) : Prop where
  fresh : ∀ (cf : String) (mt : Memtable), mgr.active[cf]? = some mt → mt.id < mgr.nextId
  inj : ∀ (cf cf' : String) (mt mt' : Memtable), mgr.active[cf]? = some mt → mgr.active[cf']? = some mt' →
    mt.id = mt'.id → cf = cf'
  records : ∀ cf, (mgr.activeData cf).Records (ledger cf)

namespace MemtableManager.Tracks

variable {mgr : MemtableManager} {ledger : String → Ledger}

theorem new (flushThreshold : Nat) : (MemtableManager.new flushThreshold).Tracks fun _ => [] where
  fresh := by simp [MemtableManager.new]
  inj := by simp [MemtableManager.new]
  records cf := by simpa [activeData, MemtableManager.new] using MemtableData.records_empty

theorem createActive (h : mgr.Tracks ledger) (hnone : mgr.active[cf]? = none)
    (segId : Nat) : (mgr.createActive cf segId).Tracks ledger where
  fresh c mt hmt := by
    simp only [MemtableManager.createActive, ExtTreeMap.getElem?_insert, Std.compare_eq_iff_eq]
      at hmt ⊢
    split at hmt
    · simp [← Option.some.inj hmt]
    · exact Nat.lt_succ_of_lt (h.fresh c mt hmt)
  inj c c' mt mt' hmt hmt' hid := by
    simp only [MemtableManager.createActive, ExtTreeMap.getElem?_insert, Std.compare_eq_iff_eq]
      at hmt hmt'
    split at hmt <;> split at hmt'
    · next hc hc' => exact hc.symm.trans hc'
    · have hlt := h.fresh c' mt' hmt'
      simp [← hid, ← Option.some.inj hmt] at hlt
    · have hlt := h.fresh c mt hmt
      simp [hid, ← Option.some.inj hmt'] at hlt
    · exact h.inj c c' mt mt' hmt hmt' hid
  records c := by
    have hrec := h.records c
    unfold activeData at hrec ⊢
    simp only [MemtableManager.createActive, ExtTreeMap.getElem?_insert, Std.compare_eq_iff_eq]
    by_cases hc : cf = c
    · subst hc
      simpa [hnone] using hrec
    · rw [if_neg hc]
      cases hmt : mgr.active[c]? with
      | none => simpa [hmt] using hrec
      | some mt => simpa [hmt, Nat.ne_of_lt (h.fresh c mt hmt)] using hrec

theorem write (h : mgr.Tracks ledger) {mt : Memtable}
    (hmt : mgr.active[cf]? = some mt) (pk : Bytes) (ws : List Write) :
    (mgr.write mt pk ws).Tracks (Function.update ledger cf (ledger cf ++ ws.map (pk, ·))) where
  fresh := h.fresh
  inj := h.inj
  records c := by
    have hrec := h.records c
    unfold activeData at hrec ⊢
    by_cases hc : c = cf
    · subst hc
      simp only [MemtableManager.write, hmt, Function.update_self] at hrec ⊢
      exact hrec.writeAll pk ws
    · rw [Function.update_of_ne hc]
      simp only [MemtableManager.write]
      cases hmt' : mgr.active[c]? with
      | none => simpa [hmt'] using hrec
      | some mt' =>
        have hne : mt'.id ≠ mt.id := fun hid => hc (h.inj c cf mt' mt hmt' hmt hid)
        simpa [hmt', hne] using hrec

end MemtableManager.Tracks

namespace StoreInv

variable {ext : LogExternal} {e : Store} {hist : Logged} {held flushed : Nat → Logged} {floor : Nat}

end StoreInv

end CassandraVerified.Storage
