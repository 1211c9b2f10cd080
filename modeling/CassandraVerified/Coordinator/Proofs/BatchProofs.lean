import CassandraVerified.Coordinator.Batch

/-!
# Batches stay in the batch log until they are applied

An entry is taken out of memory, and its file deleted, only by a call that had all its mutations
written; other calls do not touch it, and a restart reads it from its file.
-/

namespace CassandraVerified.Coordinator

open List
open Paxos (Uuid)
open Storage (Bytes)
open BatchSystem List.Subset BatchLog

variable {ext : BatchExternal} {s s' : BatchSystem} {call : Nat} {entry : BatchEntry}
  {writes writes' : List WriteCall} {made made' : List BatchEntry} {next : Nat}
  {task old new : BatchTask}

theorem mem_set_of_ne {α : Type} {l : List α} {i : Nat} {old new x : α} (hold : l[i]? = some old)
    (hmem : x ∈ l) (hne : old ≠ x) : x ∈ l.set i new := by
  obtain ⟨j, hj⟩ := mem_iff_getElem?.1 hmem
  have hij : i ≠ j := by
    rintro rfl
    exact hne (Option.some.inj (hold.symm.trans hj))
  exact mem_iff_getElem?.2 ⟨j, by rw [getElem?_set_ne hij, hj]⟩

theorem getElem?_erase_or {β : Type} (m : Std.ExtTreeMap Uuid β) (key id : Uuid) :
    (m.erase key)[id]? = m[id]? ∨ id = key ∧ (m.erase key)[id]? = none := by
  simp only [Std.ExtTreeMap.getElem?_erase, Std.compare_eq_iff_eq]
  split_ifs with hid
  · exact .inr ⟨hid.symm, rfl⟩
  · exact .inl rfl

/-- The call has written the mutations before `next`. -/
def WrittenBefore (writes : List WriteCall) (call : Nat) (entry : BatchEntry) (next : Nat) :
    Prop :=
  ∀ i mutation, i < next → entry.mutations[i]? = some mutation →
    (⟨call, some entry.id, i, mutation, true⟩ : WriteCall) ∈ writes

section

variable (h : WrittenBefore writes call entry next)

include h

theorem WrittenBefore.applied (hend : entry.mutations[next]? = none) : entry.Applied writes := by
  refine ⟨call, fun i mutation hi => h i mutation ?_ hi⟩
  have hlen := getElem?_eq_none_iff.1 hend
  obtain ⟨hlt, -⟩ := List.getElem?_eq_some_iff.1 hi
  omega

theorem WrittenBefore.succ {mutation : CoordinatedMutation}
    (hnext : entry.mutations[next]? = some mutation) :
    WrittenBefore (writes ++ [⟨call, some entry.id, next, mutation, true⟩]) call entry
      (next + 1) := by
  intro i mutation' hi hmutation
  rcases Nat.lt_succ_iff_lt_or_eq.1 hi with hlt | rfl
  · exact mem_append_left _ (h i mutation' hlt hmutation)
  · cases hnext.symm.trans hmutation
    exact mem_append_right _ (mem_singleton_self _)

theorem WrittenBefore.mono (hwrites : writes ⊆ writes') : WrittenBefore writes' call entry next :=
  fun i mutation hi hmutation => hwrites (h i mutation hi hmutation)

end

theorem BatchEntry.Applied.mono (h : entry.Applied writes) (hwrites : writes ⊆ writes') :
    entry.Applied writes' := by
  obtain ⟨call, h⟩ := h
  exact ⟨call, fun i mutation hi => hwrites (h i mutation hi)⟩

/-- What holds of a call. -/
def TaskInv (made : List BatchEntry) (writes : List WriteCall) (call : Nat) : BatchTask → Prop
  | .storing entry | .persisted entry => entry ∈ made
  | .executing none _ _ | .ended => True
  | .executing (some id) mutations next =>
    ∃ entry ∈ made, entry.id = id ∧ entry.mutations = mutations ∧
      WrittenBefore writes call entry next
  | .removing id _ => ∃ entry ∈ made, entry.id = id ∧ entry.Applied writes
  | .replaying expired _ => expired ⊆ made
  | .replayWriting entry next allOk expired _ =>
    entry ∈ made ∧ (allOk = true → WrittenBefore writes call entry next) ∧ expired ⊆ made
  | .replayRemoving entry _ expired _ =>
    entry ∈ made ∧ entry.Applied writes ∧ expired ⊆ made

theorem TaskInv.mono (h : TaskInv made writes call task) (hmade : made ⊆ made')
    (hwrites : writes ⊆ writes') : TaskInv made' writes' call task := by
  cases task with
  | storing entry => exact hmade h
  | persisted entry => exact hmade h
  | executing batchId mutations next =>
    cases batchId with
    | none => trivial
    | some id =>
      obtain ⟨entry, hmem, hid, heq, hwritten⟩ := h
      exact ⟨entry, hmade hmem, hid, heq, hwritten.mono hwrites⟩
  | removing id present =>
    obtain ⟨entry, hmem, hid, happlied⟩ := h
    exact ⟨entry, hmade hmem, hid, happlied.mono hwrites⟩
  | replaying expired counts => exact List.Subset.trans h hmade
  | replayWriting entry next allOk expired counts =>
    exact ⟨hmade h.1, fun hok => (h.2.1 hok).mono hwrites, List.Subset.trans h.2.2 hmade⟩
  | replayRemoving entry present expired counts =>
    exact ⟨hmade h.1, h.2.1.mono hwrites, List.Subset.trans h.2.2 hmade⟩
  | ended => trivial

/-- What holds in every state of a run. -/
structure BatchInv (ext : BatchExternal) (s : BatchSystem) : Prop where
  stored : s.stored ⊆ s.made
  memory : ∀ id entry, s.batchlog.entries[id]? = some entry → entry ∈ s.made ∧ entry.id = id
  files : ∀ id bytes, s.batchlog.dir[id]? = some bytes →
    ∃ entry ∈ s.made, entry.id = id ∧ ext.toVec entry = some bytes
  kept : ∀ entry ∈ s.stored, ¬ entry.Applied s.writes →
    (∃ data, ext.toVec entry = some data ∧ s.batchlog.dir[entry.id]? = some data) ∧
      (s.batchlog.entries[entry.id]? = some entry ∨ .persisted entry ∈ s.tasks)
  tasks : ∀ call task, s.tasks[call]? = some task → TaskInv s.made s.writes call task

theorem eq_of_id_eq (hids : s.DistinctIds) {entry entry' : BatchEntry} (hmem : entry ∈ s.made)
    (hmem' : entry' ∈ s.made) (hid : entry.id = entry'.id) : entry = entry' :=
  inj_on_of_nodup_map hids hmem hmem' hid

namespace BatchInv

theorem start (guardrails : BatchGuardrails) (replayRateLimit : Nat) :
    BatchInv ext (.start guardrails replayRateLimit) where
  stored := refl _
  memory id entry h := by simp [BatchSystem.start, new] at h
  files id bytes h := by simp [BatchSystem.start, new] at h
  kept entry hmem := absurd hmem not_mem_nil
  tasks call task h := by simp [BatchSystem.start] at h

section

variable (h : BatchInv ext s)

include h

/-- One call goes on. -/
theorem advanceTo (hold : s.tasks[call]? = some old) (htasks : s'.tasks = s.tasks.set call new)
    (hmade : s'.made = s.made) (hwrites : s.writes ⊆ s'.writes)
    (hnew : TaskInv s'.made s'.writes call new) (hstored : s'.stored ⊆ s'.made)
    (hmemory : ∀ id entry, s'.batchlog.entries[id]? = some entry → entry ∈ s.made ∧ entry.id = id)
    (hfiles : ∀ id bytes, s'.batchlog.dir[id]? = some bytes →
      ∃ entry ∈ s.made, entry.id = id ∧ ext.toVec entry = some bytes)
    (hkept : ∀ entry ∈ s'.stored, ¬ entry.Applied s'.writes →
      (∃ data, ext.toVec entry = some data ∧ s'.batchlog.dir[entry.id]? = some data) ∧
      (s'.batchlog.entries[entry.id]? = some entry ∨ .persisted entry ∈ s'.tasks)) :
    BatchInv ext s' where
  stored := hstored
  memory := by rwa [hmade]
  files := by rwa [hmade]
  kept := hkept
  tasks call' task htask := by
    rw [htasks] at htask
    by_cases heq : call = call'
    · subst heq
      have hlt : call < s.tasks.length := (List.getElem?_eq_some_iff.1 hold).1
      rw [getElem?_set_self hlt] at htask
      cases htask
      exact hnew
    · rw [getElem?_set_ne heq] at htask
      exact (h.tasks call' task htask).mono (by rw [hmade]; exact refl _) hwrites

theorem advance_same (hold : s.tasks[call]? = some old)
    (hnotPersisted : ∀ entry, old ≠ .persisted entry) (htasks : s'.tasks = s.tasks.set call new)
    (hmade : s'.made = s.made) (hstored : s'.stored = s.stored) (hwrites : s.writes ⊆ s'.writes)
    (hentries : s'.batchlog.entries = s.batchlog.entries)
    (hdir : s'.batchlog.dir = s.batchlog.dir) (hnew : TaskInv s'.made s'.writes call new) :
    BatchInv ext s' := by
  refine h.advanceTo hold htasks hmade hwrites hnew ?_ ?_ ?_ ?_
  · rw [hstored, hmade]
    exact h.stored
  · rw [hentries]
    exact h.memory
  · rw [hdir]
    exact h.files
  · rw [hstored, hentries, hdir, htasks]
    intro entry hmem hnot
    obtain ⟨hfile, hhere⟩ := h.kept entry hmem fun happlied => hnot (happlied.mono hwrites)
    exact ⟨hfile, hhere.imp_right fun htask => mem_set_of_ne hold htask (hnotPersisted entry)⟩

section

variable (hids : s.DistinctIds)

include hids

/-- A call takes an entry that was applied out of memory, or deletes its file. -/
theorem advance_remove {log : BatchLog} (hold : s.tasks[call]? = some old)
    (hnotPersisted : ∀ entry, old ≠ .persisted entry) (hmem : entry ∈ s.made)
    (happlied : entry.Applied s.writes)
    (hentries : ∀ id : Uuid, log.entries[id]? = s.batchlog.entries[id]? ∨
      id = entry.id ∧ log.entries[id]? = none)
    (hdir : ∀ id : Uuid, log.dir[id]? = s.batchlog.dir[id]? ∨ id = entry.id ∧ log.dir[id]? = none)
    (hnew : TaskInv s.made s.writes call new) :
    BatchInv ext ((s.setLog log).setTask call new) := by
  refine h.advanceTo hold rfl rfl (refl _) hnew h.stored ?_ ?_ ?_
  · intro id entry' hentry
    rcases hentries id with heq | ⟨-, hnone⟩
    · exact h.memory id entry' (heq.symm.trans hentry)
    · cases hnone.symm.trans hentry
  · intro id bytes hbytes
    rcases hdir id with heq | ⟨-, hnone⟩
    · exact h.files id bytes (heq.symm.trans hbytes)
    · cases hnone.symm.trans hbytes
  · intro entry' hstored hnot
    obtain ⟨⟨data, hdata, hthere⟩, hhere⟩ := h.kept entry' hstored hnot
    have hne : entry'.id ≠ entry.id := by
      intro hid
      exact hnot (eq_of_id_eq hids hmem (h.stored hstored) hid.symm ▸ happlied)
    have hentry := (hentries entry'.id).resolve_right fun hand => hne hand.1
    have hfile := (hdir entry'.id).resolve_right fun hand => hne hand.1
    exact ⟨⟨data, hdata, hfile.trans hthere⟩, hhere.imp hentry.trans fun htask =>
      mem_set_of_ne hold htask (hnotPersisted entry')⟩

theorem advance_storing (hpersists : s.Persists ext)
    (hold : s.tasks[call]? = some (.storing entry)) (ok : Bool) (now : Int64) :
    BatchInv ext (s.advance ext call (.storing entry) ok now) := by
  have hmade : entry ∈ s.made := h.tasks call _ hold
  obtain ⟨data, hdata⟩ := hpersists entry hmade
  simp only [advance, persistEntry, hdata]
  refine h.advanceTo hold rfl rfl (refl _) hmade ?_ h.memory ?_ ?_
  · exact cons_subset.2 ⟨hmade, h.stored⟩
  · intro id bytes hbytes
    simp only [setTask, setLog, Std.ExtTreeMap.getElem?_insert, Std.compare_eq_iff_eq] at hbytes
    split_ifs at hbytes with hid
    · exact ⟨entry, hmade, hid, hdata.trans hbytes⟩
    · exact h.files id bytes hbytes
  · intro entry' hstored hnot
    simp only [setTask, setLog, Std.ExtTreeMap.getElem?_insert, Std.compare_eq_iff_eq]
    by_cases heq : entry = entry'
    · subst heq
      have hlt : call < s.tasks.length := (List.getElem?_eq_some_iff.1 hold).1
      exact ⟨⟨data, hdata, by simp⟩, .inr (mem_iff_getElem?.2 ⟨call, getElem?_set_self hlt⟩)⟩
    · have hmem : entry' ∈ s.stored := (mem_cons.1 hstored).resolve_left (Ne.symm heq)
      have hne : entry.id ≠ entry'.id := fun hid =>
        heq (eq_of_id_eq hids hmade (h.stored hmem) hid)
      obtain ⟨hfile, hhere⟩ := h.kept entry' hmem hnot
      rw [if_neg hne]
      exact ⟨hfile, hhere.imp_right fun htask => mem_set_of_ne hold htask (by simp)⟩

theorem advance_persisted (hold : s.tasks[call]? = some (.persisted entry)) (ok : Bool)
    (now : Int64) :
    BatchInv ext (s.advance ext call (.persisted entry) ok now) := by
  have hmade : entry ∈ s.made := h.tasks call _ hold
  have hnew : TaskInv s.made s.writes call (.executing (some entry.id) entry.mutations 0) :=
    ⟨entry, hmade, rfl, rfl, fun i _ hi => absurd hi (Nat.not_lt_zero i)⟩
  refine h.advanceTo hold rfl rfl (refl _) hnew h.stored ?_ h.files ?_
  · intro id entry' hentry
    simp only [advance, setTask, setLog, insertEntry,
      Std.ExtTreeMap.getElem?_insert, Std.compare_eq_iff_eq] at hentry
    split_ifs at hentry with hid
    · cases hentry
      exact ⟨hmade, hid⟩
    · exact h.memory id entry' hentry
  · intro entry' hstored hnot
    obtain ⟨hfile, hhere⟩ := h.kept entry' hstored hnot
    refine ⟨hfile, ?_⟩
    simp only [advance, setTask, setLog, insertEntry,
      Std.ExtTreeMap.getElem?_insert, Std.compare_eq_iff_eq]
    by_cases heq : entry = entry'
    · subst heq
      exact .inl (by simp)
    · have hne : entry.id ≠ entry'.id := fun hid =>
        heq (eq_of_id_eq hids hmade (h.stored hstored) hid)
      rw [if_neg hne]
      exact hhere.imp_right fun htask =>
        mem_set_of_ne hold htask fun hsame => heq (BatchTask.persisted.inj hsame)

theorem advance_executing {batchId : Option Uuid} {mutations : List CoordinatedMutation}
    (hold : s.tasks[call]? = some (.executing batchId mutations next)) (ok : Bool) (now : Int64) :
    BatchInv ext (s.advance ext call (.executing batchId mutations next) ok now) := by
  have htask := h.tasks call _ hold
  simp only [advance]
  cases hnext : mutations[next]? with
  | some mutation =>
    refine h.advance_same hold nofun rfl rfl rfl (subset_append_left _ _) rfl rfl ?_
    cases ok with
    | false => trivial
    | true =>
      cases batchId with
      | none => trivial
      | some id =>
        obtain ⟨entry, hmem, rfl, rfl, hwritten⟩ := htask
        exact ⟨entry, hmem, rfl, rfl, hwritten.succ hnext⟩
  | none =>
    cases batchId with
    | none => exact h.advance_same hold nofun rfl rfl rfl (refl _) rfl rfl trivial
    | some id =>
      obtain ⟨entry, hmem, rfl, rfl, hwritten⟩ := htask
      have happlied := hwritten.applied hnext
      exact h.advance_remove hids hold nofun hmem happlied (getElem?_erase_or _ _) (fun _ => .inl rfl)
        ⟨entry, hmem, rfl, happlied⟩

theorem advance_replayWriting {allOk : Bool} {expired : List BatchEntry} {counts : ReplayCounts}
    (hold : s.tasks[call]? = some (.replayWriting entry next allOk expired counts)) (ok : Bool)
    (now : Int64) :
    BatchInv ext (s.advance ext call (.replayWriting entry next allOk expired counts) ok now) := by
  obtain ⟨hmem, hwritten, hexpired⟩ := h.tasks call _ hold
  simp only [advance]
  cases hnext : entry.mutations[next]? with
  | some mutation =>
    refine h.advance_same hold nofun rfl rfl rfl (subset_append_left _ _) rfl rfl
      ⟨hmem, ?_, hexpired⟩
    intro hok
    obtain ⟨hallOk, rfl⟩ := Bool.and_eq_true_iff.1 hok
    exact (hwritten hallOk).succ hnext
  | none =>
    cases allOk with
    | true =>
      have happlied := (hwritten rfl).applied hnext
      exact h.advance_remove hids hold nofun hmem happlied (getElem?_erase_or _ _) (fun _ => .inl rfl)
        ⟨hmem, happlied, hexpired⟩
    | false => exact h.advance_same hold nofun rfl rfl rfl (refl _) rfl rfl hexpired

theorem advance (hpersists : s.Persists ext) (hold : s.tasks[call]? = some task) (ok : Bool)
    (now : Int64) :
    BatchInv ext (s.advance ext call task ok now) := by
  have htask := h.tasks call task hold
  cases task with
  | storing entry => exact h.advance_storing hids hpersists hold ok now
  | persisted entry => exact h.advance_persisted hids hold ok now
  | executing batchId mutations next => exact h.advance_executing hids hold ok now
  | removing id present =>
    obtain ⟨entry, hmem, rfl, happlied⟩ := htask
    cases present with
    | true =>
      exact h.advance_remove hids hold nofun hmem happlied (fun _ => .inl rfl)
        (getElem?_erase_or _ _) trivial
    | false => exact h.advance_same hold nofun rfl rfl rfl (refl _) rfl rfl trivial
  | replaying expired counts =>
    cases expired with
    | nil => exact h.advance_same hold nofun rfl rfl rfl (refl _) rfl rfl trivial
    | cons entry expired =>
      obtain ⟨hmem, hexpired⟩ := cons_subset.1 htask
      simp only [advance]
      split
      · exact h.advance_same hold nofun rfl rfl rfl (refl _) rfl rfl hexpired
      · exact h.advance_same hold nofun rfl rfl rfl (refl _) rfl rfl
          ⟨hmem, fun _ i _ hi => absurd hi (Nat.not_lt_zero i), hexpired⟩
  | replayWriting entry next allOk expired counts => exact h.advance_replayWriting hids hold ok now
  | replayRemoving entry present expired counts =>
    obtain ⟨hmem, happlied, hexpired⟩ := htask
    cases present with
    | true =>
      exact h.advance_remove hids hold nofun hmem happlied (fun _ => .inl rfl)
        (getElem?_erase_or _ _) hexpired
    | false => exact h.advance_same hold nofun rfl rfl rfl (refl _) rfl rfl hexpired
  | ended => exact h

end

/-- A call begins. -/
theorem addTask (htasks : s'.tasks = s.tasks ++ [task]) (hmade : s.made ⊆ s'.made)
    (hstored : s'.stored = s.stored) (hwrites : s'.writes = s.writes)
    (hentries : s'.batchlog.entries = s.batchlog.entries)
    (hdir : s'.batchlog.dir = s.batchlog.dir)
    (hnew : TaskInv s'.made s'.writes s.tasks.length task) : BatchInv ext s' where
  stored := by
    rw [hstored]
    exact List.Subset.trans h.stored hmade
  memory id entry hentry := by
    rw [hentries] at hentry
    obtain ⟨hmem, hid⟩ := h.memory id entry hentry
    exact ⟨hmade hmem, hid⟩
  files id bytes hbytes := by
    rw [hdir] at hbytes
    obtain ⟨entry, hmem, hid, heq⟩ := h.files id bytes hbytes
    exact ⟨entry, hmade hmem, hid, heq⟩
  kept := by
    rw [hstored, hwrites, hentries, hdir, htasks]
    intro entry hmem hnot
    obtain ⟨hfile, hhere⟩ := h.kept entry hmem hnot
    exact ⟨hfile, hhere.imp_right (mem_append_left _)⟩
  tasks call task' htask := by
    rw [htasks] at htask
    rcases Nat.lt_trichotomy call s.tasks.length with hlt | rfl | hgt
    · rw [getElem?_append_left hlt] at htask
      exact (h.tasks call task' htask).mono hmade (by rw [hwrites]; exact refl _)
    · rw [getElem?_concat_length] at htask
      cases htask
      exact hnew
    · rw [getElem?_eq_none (by simp; omega)] at htask
      exact absurd htask nofun

theorem executeBatch (batchType : BatchType) (mutations : List CoordinatedMutation) (id : Uuid)
    (now : Int64) :
    BatchInv ext (s.executeBatch batchType mutations id now) := by
  unfold BatchSystem.executeBatch
  split
  · exact h.addTask rfl (refl _) rfl rfl rfl rfl trivial
  · split_ifs
    · exact h.addTask rfl (subset_cons_self _ _) rfl rfl rfl rfl mem_cons_self
    · exact h.addTask rfl (refl _) rfl rfl rfl rfl trivial

theorem replayBatchlog (order : List Uuid) (now : Int64) (maxAge : Nat) :
    BatchInv ext (s.replayBatchlog order now maxAge) := by
  unfold BatchSystem.replayBatchlog
  split_ifs
  · exact h.addTask rfl (refl _) rfl rfl rfl rfl trivial
  · refine h.addTask rfl (refl _) rfl rfl rfl rfl ?_
    intro entry hmem
    obtain ⟨id, -, hentry⟩ := mem_filterMap.1 (mem_filter.1 hmem).1
    exact (h.memory id entry hentry).1

section

variable (hext : ext.Lawful)

include hext

theorem fromSlice_of_file {file : Uuid × Bytes} (hfile : file ∈ s.batchlog.dir.toList) :
    ∃ entry ∈ s.made, entry.id = file.1 ∧ ext.toVec entry = some file.2 ∧
      ext.fromSlice file.2 = some entry := by
  obtain ⟨entry, hmem, hid, heq⟩ :=
    h.files file.1 file.2 (Std.ExtTreeMap.mem_toList_iff_getElem?_eq_some.1 hfile)
  exact ⟨entry, hmem, hid, heq, hext entry file.2 heq⟩

theorem map_id_loaded :
    (s.batchlog.dir.toList.filterMap fun file => ext.fromSlice file.2).map BatchEntry.id =
      s.batchlog.dir.toList.map Prod.fst := by
  have hall := fun file (hfile : file ∈ s.batchlog.dir.toList) => h.fromSlice_of_file hext hfile
  generalize s.batchlog.dir.toList = files at hall
  induction files with
  | nil => rfl
  | cons file files ih =>
    obtain ⟨entry, -, hid, -, heq⟩ := hall file mem_cons_self
    have htail := ih fun file' hfile => hall file' (mem_cons_of_mem _ hfile)
    simp [heq, htail, hid]

theorem getElem?_reload_iff {id : Uuid} :
    (s.batchlog.withPersistenceDir ext).entries[id]? = some entry ↔
      entry.id = id ∧ ∃ data, ext.toVec entry = some data ∧ s.batchlog.dir[id]? = some data := by
  set loaded := s.batchlog.dir.toList.filterMap fun file => ext.fromSlice file.2 with hloaded
  have hkeys : (loaded.map fun entry => (entry.id, entry)).map Prod.fst =
      s.batchlog.dir.toList.map Prod.fst := by
    rw [← h.map_id_loaded hext, map_map]
    rfl
  have hdistinct : (loaded.map fun entry => (entry.id, entry)).Pairwise
      fun a b => ¬ compare a.1 b.1 = .eq := by
    have hfiles := Std.ExtTreeMap.distinct_keys_toList (t := s.batchlog.dir)
    rw [← pairwise_map (f := Prod.fst) (R := fun a b => ¬ compare a b = .eq)] at hfiles ⊢
    rwa [hkeys]
  have hof : ∀ entry' ∈ loaded, (s.batchlog.withPersistenceDir ext).entries[entry'.id]? =
      some entry' := fun entry' hmem =>
    Std.ExtTreeMap.getElem?_ofList_of_mem Std.ReflCmp.compare_self hdistinct
      (mem_map.2 ⟨entry', hmem, rfl⟩)
  constructor
  · intro hentry
    have hmem : id ∈ (s.batchlog.withPersistenceDir ext).entries := by
      rw [Std.ExtTreeMap.mem_iff_isSome_getElem?, hentry]
      rfl
    rw [withPersistenceDir, Std.ExtTreeMap.mem_ofList, contains_iff_mem, map_map, mem_map] at hmem
    obtain ⟨entry', hentry', rfl⟩ := hmem
    cases (hof entry' hentry').symm.trans hentry
    obtain ⟨file, hfile, hslice⟩ := mem_filterMap.1 hentry'
    obtain ⟨entry'', -, hid, hdata, hslice'⟩ := h.fromSlice_of_file hext hfile
    cases hslice.symm.trans hslice'
    have hthere := Std.ExtTreeMap.mem_toList_iff_getElem?_eq_some.1 hfile
    rw [← hid] at hthere
    exact ⟨rfl, file.2, hdata, hthere⟩
  · rintro ⟨rfl, data, hdata, hfile⟩
    refine hof entry (mem_filterMap.2 ⟨(entry.id, data), ?_, hext entry data hdata⟩)
    exact Std.ExtTreeMap.mem_toList_iff_getElem?_eq_some.2 hfile

theorem reload : BatchInv ext (s.reload ext) where
  stored := h.stored
  memory id entry hentry := by
    obtain ⟨hid, data, hdata, hfile⟩ := (h.getElem?_reload_iff hext).1 hentry
    obtain ⟨entry', hmem, -, hdata'⟩ := h.files id data hfile
    have hsame : some entry' = some entry := by
      rw [← hext entry' data hdata', hext entry data hdata]
    exact ⟨Option.some.inj hsame ▸ hmem, hid⟩
  files := h.files
  kept entry hmem hnot := by
    obtain ⟨hfile, -⟩ := h.kept entry hmem hnot
    exact ⟨hfile, .inl ((h.getElem?_reload_iff hext).2 ⟨rfl, hfile⟩)⟩
  tasks call task htask := by
    simp only [BatchSystem.reload, getElem?_map, Option.map_eq_some_iff] at htask
    obtain ⟨-, -, rfl⟩ := htask
    trivial

theorem step (hids : s.DistinctIds) (hpersists : s.Persists ext) (step : BatchStep) :
    BatchInv ext (s.step ext step) := by
  cases step with
  | executeBatch batchType mutations id now => exact h.executeBatch batchType mutations id now
  | replayBatchlog order now maxAge => exact h.replayBatchlog order now maxAge
  | advance call ok now =>
    simp only [BatchSystem.step]
    split
    · exact h.advance hids hpersists ‹_› ok now
    · exact h
  | reload => exact h.reload hext

end

end

end BatchInv

theorem BatchSystem.made_advance (s : BatchSystem) (call : Nat) (task : BatchTask) (ok : Bool)
    (now : Int64) : (s.advance ext call task ok now).made = s.made := by
  unfold advance
  repeat' split
  all_goals rfl

theorem BatchSystem.made_step (ext : BatchExternal) (s : BatchSystem) (step : BatchStep) :
    s.made <:+ (s.step ext step).made := by
  cases step with
  | executeBatch batchType mutations id now =>
    simp only [step, executeBatch]
    split
    · exact suffix_rfl
    · split_ifs
      · exact suffix_cons _ _
      · exact suffix_rfl
  | replayBatchlog order now maxAge =>
    simp only [step, replayBatchlog]
    split_ifs <;> exact suffix_rfl
  | advance call ok now =>
    simp only [step]
    split
    · rw [made_advance]
    · exact suffix_rfl
  | reload => exact suffix_rfl

section

variable (hext : ext.Lawful) (guardrails : BatchGuardrails) (replayRateLimit : Nat)
  (steps : List BatchStep) (hids : ((start guardrails replayRateLimit).run ext steps).DistinctIds)
  (hpersists : ((start guardrails replayRateLimit).run ext steps).Persists ext)

include hext guardrails replayRateLimit steps hids hpersists

theorem batchInv_run :
    BatchInv ext ((start guardrails replayRateLimit).run ext steps) := by
  induction steps using reverseRecOn with
  | nil => exact BatchInv.start guardrails replayRateLimit
  | append_singleton steps step ih =>
    rw [run, foldl_append] at hids hpersists ⊢
    set before := (start guardrails replayRateLimit).run ext steps with hbefore
    have hmade := made_step ext before step
    have hids' : before.DistinctIds := List.Nodup.sublist (hmade.sublist.map _) hids
    have hpersists' : before.Persists ext := fun entry hmem => hpersists entry (hmade.subset hmem)
    exact (ih hids' hpersists').step hext hids' hpersists' step

/-- An entry whose file was written is in the batch log, and every restart finds it, until one
execution or replay has written all its mutations. -/
theorem applied_or_kept :
    ∀ entry ∈ ((start guardrails replayRateLimit).run ext steps).stored,
      entry.Applied ((start guardrails replayRateLimit).run ext steps).writes ∨
      entry.Kept ext ((start guardrails replayRateLimit).run ext steps) := by
  intro entry hmem
  have h := batchInv_run hext guardrails replayRateLimit steps hids hpersists
  by_cases happlied : entry.Applied ((start guardrails replayRateLimit).run ext steps).writes
  · exact .inl happlied
  · obtain ⟨hfile, hhere⟩ := h.kept entry hmem happlied
    exact .inr ⟨hhere, (h.getElem?_reload_iff hext).2 ⟨rfl, hfile⟩⟩

end

def twoMutations : BatchEntry :=
  ⟨1, .logged, [.simple "ks" "t" [1] [] 5, .simple "ks" "t" [2] [] 5], 5, 1⟩

def twoMutationsExternal : BatchExternal where
  toVec entry := if entry = twoMutations then some [1] else none
  fromSlice _ := some twoMutations

theorem lawful_twoMutationsExternal : twoMutationsExternal.Lawful := by
  intro entry data hdata
  simp only [twoMutationsExternal, Option.ite_none_right_eq_some] at hdata
  rw [hdata.1]
  rfl

/-- The second write fails, and the batch is replayed after a restart. -/
def failedThenReplayed : List BatchStep :=
  [.executeBatch .logged twoMutations.mutations 1 5, .advance 0 true 5, .advance 0 true 5,
    .advance 0 true 5, .advance 0 false 5, .reload, .replayBatchlog [1] 100000 60000,
    .advance 1 true 100000, .advance 1 true 100000, .advance 1 true 100000]

theorem applied_or_kept_failedThenReplayed :
    twoMutations.Applied ((start {} 100).run twoMutationsExternal failedThenReplayed).writes ∨
      twoMutations.Kept twoMutationsExternal
        ((start {} 100).run twoMutationsExternal failedThenReplayed) := by
  have hmade : ((start {} 100).run twoMutationsExternal failedThenReplayed).made =
      [twoMutations] := rfl
  have hstored : twoMutations ∈
      ((start {} 100).run twoMutationsExternal failedThenReplayed).stored :=
    mem_singleton_self _
  refine applied_or_kept lawful_twoMutationsExternal {} 100 failedThenReplayed ?_ ?_ _ hstored
  · rw [BatchSystem.DistinctIds, hmade]
    exact nodup_singleton _
  · rw [BatchSystem.Persists, hmade]
    simp [twoMutationsExternal]

end CassandraVerified.Coordinator
