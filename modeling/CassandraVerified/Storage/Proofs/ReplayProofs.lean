import CassandraVerified.Storage.Json
import CassandraVerified.Storage.Proofs.LogProofs

/-!
# Proofs: replay delivers what was appended

As long as every segment id has one digit, the order of the file names is that of the ids, and
replay delivers the appended mutations in their order. `CommitLog-10.log` comes before
`CommitLog-2.log`.
-/

namespace CassandraVerified.Storage

open List
open Std (ExtTreeMap)
open CommitLog

variable {m : Mutation} {ms : List Mutation}

namespace LogInv

variable {ext : LogExternal} {log : CommitLog} {hist : List (Nat × Mutation)}

theorem length_appendAll_le (log : CommitLog) (calls : List (Mutation × Nat)) :
    (log.appendAll ext calls).2.length ≤ calls.length := by
  induction calls generalizing log with
  | nil => simp [appendAll]
  | cons call calls ih =>
    obtain ⟨m, cdcUsed⟩ := call
    simp only [appendAll]
    split
    · simpa using ih _
    · exact (ih _).trans (by simp)

/-- After a run of appends the history holds what they added. If none failed, every segment that was
started holds something. -/
theorem appendAll (inv : LogInv ext log hist 0) {calls : List (Mutation × Nat)} {log' : CommitLog}
    {appended : List Mutation} (h : log.appendAll ext calls = (log', appended)) :
    ∃ added, LogInv ext log' (hist ++ added) 0 ∧ added.map Prod.snd = appended ∧
      log'.config = log.config ∧
      (appended.length = calls.length → ∀ k, log.current.id < k → k ≤ log'.current.id →
        ∃ e ∈ added, e.1 = k) := by
  induction calls generalizing log hist appended with
  | nil =>
    obtain ⟨rfl, rfl⟩ : log = log' ∧ [] = appended := by simpa [appendAll] using h
    exact ⟨[], by simpa using inv, rfl, rfl, fun _ k hlt hle => absurd hlt (by omega)⟩
  | cons call calls ih =>
    obtain ⟨m, cdcUsed⟩ := call
    rw [appendAll] at h
    split at h
    · next log₁ r happ =>
      obtain ⟨id, offset⟩ := r
      obtain ⟨hlog', rfl⟩ := Prod.mk.inj h
      have hrest : log₁.appendAll ext calls = (log', (log₁.appendAll ext calls).2) :=
        Prod.ext hlog' rfl
      obtain ⟨inv₁, hid⟩ := inv.append happ
      obtain ⟨hconfig, hle, hle'⟩ := inv.append_frame happ
      obtain ⟨added, inv', hadded, hconfig', hstarted⟩ := ih inv₁ hrest
      refine ⟨(id, m) :: added, by simpa using inv', by simp [hadded],
        hconfig'.trans hconfig, fun hall k hlt hk => ?_⟩
      -- a segment that this append has started, or one of a later append
      rcases Nat.lt_or_ge log₁.current.id k with hlt' | hge
      · obtain ⟨e, he, hek⟩ := hstarted (by simpa using hall) k hlt' hk
        exact ⟨e, mem_cons_of_mem _ he, hek⟩
      · exact ⟨(id, m), mem_cons_self, by simp only; omega⟩
    · next log₁ e happ =>
      obtain ⟨added, inv', hadded, hconfig, -⟩ := ih (inv.append_of_error happ) h
      refine ⟨added, inv', hadded, hconfig.trans (inv.append_frame happ).1, fun hall => ?_⟩
      have hle : (log₁.appendAll ext calls).2.length ≤ calls.length := length_appendAll_le _ _
      simp only [h, length_cons] at hle hall
      omega

theorem filter_le_append_filter_eq (hsorted : hist.Pairwise fun a b => a.1 ≤ b.1) (n : Nat) :
    hist.filter (·.1 ≤ n) ++ hist.filter (·.1 = n + 1) = hist.filter (·.1 ≤ n + 1) := by
  induction hist with
  | nil => rfl
  | cons e hist ih =>
    obtain ⟨hfirst, hsorted⟩ := pairwise_cons.mp hsorted
    rcases Nat.lt_or_ge n e.1 with hlt | hle
    · -- nothing from here on has an id up to `n`
      have hge : ∀ e' ∈ e :: hist, n < e'.1 := by
        rintro e' (_ | ⟨_, he'⟩)
        · exact hlt
        · exact hlt.trans_le (hfirst e' he')
      have hnil : (e :: hist).filter (·.1 ≤ n) = [] := by
        rw [filter_eq_nil_iff]
        intro e' he'
        simpa using hge e' he'
      rw [hnil, nil_append]
      refine filter_congr fun e' he' => ?_
      have := hge e' he'
      exact decide_eq_decide.mpr (by omega)
    · have hne : ¬ e.1 = n + 1 := by omega
      have hle' : e.1 ≤ n + 1 := by omega
      simpa [hle, hne, hle'] using ih hsorted

theorem flatMap_filter_eq (hsorted : hist.Pairwise fun a b => a.1 ≤ b.1)
    (hpos : ∀ e ∈ hist, 1 ≤ e.1) (n : Nat) :
    ((List.range' 1 n).flatMap fun k => hist.filter (·.1 = k)) = hist.filter (·.1 ≤ n) := by
  induction n with
  | zero =>
    symm
    rw [List.range'_zero, flatMap_nil, filter_eq_nil_iff]
    intro e he
    simpa using Nat.one_le_iff_ne_zero.mp (hpos e he)
  | succ n ih =>
    rw [List.range'_1_concat, flatMap_append, ih, flatMap_singleton, Nat.add_comm 1 n,
      filter_le_append_filter_eq hsorted]

theorem files_keys (inv : LogInv ext log hist 0) (hle : log.current.id ≤ 9) :
    log.files.keys = (List.range' 1 log.current.id).map segmentFilename := by
  apply TreeMap.keys_eq_of_pairwise
  · have hnine : ((List.range' 1 9).map segmentFilename).Pairwise
        fun a b => compare a b = .lt := by decide
    refine hnine.sublist (List.Sublist.map _ ?_)
    exact List.range'_sublist_right.mpr hle
  · intro name
    rw [ExtTreeMap.mem_iff_isSome_getElem?, Option.isSome_iff_exists, mem_map]
    constructor
    · rintro ⟨bytes, hbytes⟩
      obtain ⟨k, hpos, hk, rfl, -⟩ := inv.files_known hbytes
      exact ⟨k, mem_range'_1.mpr ⟨hpos, by omega⟩, rfl⟩
    · rintro ⟨k, hk, rfl⟩
      obtain ⟨hpos, hlt⟩ := mem_range'_1.mp hk
      exact ⟨_, inv.files_closed hpos (by omega)⟩

theorem replay_eq_of_le (inv : LogInv ext log hist 0) (hlaw : ext.Lawful log.config)
    (hfits : ∀ e ∈ hist, e.2.Fits ext log.config) (policy : CorruptionPolicy)
    (hle : log.current.id ≤ 9) :
    (log.replayWithPolicy ext policy).mutations = hist.map Prod.snd := by
  have hall : hist.filter (·.1 ≤ log.current.id) = hist :=
    filter_eq_self.mpr fun e he => by simpa using (inv.ids e he).2
  rw [inv.replay_mutations hlaw hfits, inv.files_keys hle, flatMap_map]
  simp only [mutationsIn_segmentFilename]
  rw [← map_flatMap, flatMap_filter_eq inv.sorted fun e he => (inv.ids e he).1, hall]

theorem id_eq_of_nodup (hnodup : (hist.map Prod.snd).Nodup) {a b : Nat}
    (ha : (a, m) ∈ hist) (hb : (b, m) ∈ hist) : a = b :=
  congrArg Prod.fst (inj_on_of_nodup_map hnodup ha hb rfl)

theorem pairwise_id (hsorted : hist.Pairwise fun a b => a.1 ≤ b.1)
    (hnodup : (hist.map Prod.snd).Nodup) :
    (hist.map Prod.snd).Pairwise fun m m' =>
      ∀ a b, (a, m) ∈ hist → (b, m') ∈ hist → a ≤ b := by
  rw [pairwise_map]
  refine hsorted.imp_of_mem fun {e e'} he he' hle a b ha hb => ?_
  rw [id_eq_of_nodup hnodup ha he, id_eq_of_nodup hnodup hb he']
  exact hle

/-- The replayed mutations are in the order of their segments' names. -/
theorem pairwise_name (hnodup : (hist.map Prod.snd).Nodup) (files : ExtTreeMap String Bytes) :
    (files.keys.flatMap (mutationsIn hist)).Pairwise fun m m' =>
      ∀ a b, (a, m) ∈ hist → (b, m') ∈ hist →
        compare (segmentFilename b) (segmentFilename a) ≠ .lt := by
  have hname : ∀ name m a, m ∈ mutationsIn hist name → (a, m) ∈ hist →
      segmentFilename a = name := by
    intro name m a hm ha
    obtain ⟨⟨b, m'⟩, hb, heq⟩ := mem_filterMap.mp hm
    obtain ⟨hb', rfl⟩ : segmentFilename b = name ∧ m' = m := by simpa using heq
    rw [id_eq_of_nodup hnodup ha hb, hb']
  rw [pairwise_flatMap]
  constructor
  · intro name _
    refine pairwise_of_forall_mem_list fun m hm m' hm' a b ha hb => ?_
    rw [hname name m a hm ha, hname name m' b hm' hb]
    simp
  · refine ExtTreeMap.ordered_keys.imp fun {name name'} hlt m hm m' hm' a b ha hb => ?_
    rw [hname name m a hm ha, hname name' m' b hm' hb, Std.OrientedCmp.gt_of_lt hlt]
    decide

/-- A mutation in segment 2 and one in segment 10 change places. -/
theorem replay_ne (inv : LogInv ext log hist 0) (hlaw : ext.Lawful log.config)
    (hfits : ∀ e ∈ hist, e.2.Fits ext log.config) (policy : CorruptionPolicy)
    (hnodup : (hist.map Prod.snd).Nodup) {m' : Mutation} (hm : (2, m) ∈ hist)
    (hm' : (10, m') ∈ hist) :
    (log.replayWithPolicy ext policy).mutations ≠ hist.map Prod.snd := by
  intro heq
  rw [inv.replay_mutations hlaw hfits] at heq
  have hboth := (pairwise_id inv.sorted hnodup).and (heq ▸ pairwise_name hnodup log.files)
  have hne : m ≠ m' := by
    rintro rfl
    exact absurd (id_eq_of_nodup hnodup hm hm') (by decide)
  -- one of the two comes first, against the order of the names or of the ids
  have hneither : (hist.map Prod.snd).Pairwise fun x y =>
      ¬ (x = m ∧ y = m') ∧ ¬ (x = m' ∧ y = m) := by
    refine hboth.imp fun {x y} ⟨hid, hname⟩ => ⟨?_, ?_⟩
    · rintro ⟨rfl, rfl⟩
      exact hname 2 10 hm hm' (by decide)
    · rintro ⟨rfl, rfl⟩
      exact absurd (hid 10 2 hm' hm) (by decide)
  have hsymm : Std.Symm fun x y : Mutation => ¬ (x = m ∧ y = m') ∧ ¬ (x = m' ∧ y = m) :=
    ⟨fun x y h => ⟨fun h' => h.2 h'.symm, fun h' => h.1 h'.symm⟩⟩
  exact (hneither.forall (mem_map_of_mem hm) (mem_map_of_mem hm') hne).1 ⟨rfl, rfl⟩

end LogInv

section

variable {ext : LogExternal} {config : CommitLogConfig} {calls : List (Mutation × Nat)}
  {log : CommitLog} {appended : List Mutation} (policy : CorruptionPolicy)
  (hlaw : ext.Lawful config) (hrun : (openLog config ∅).appendAll ext calls = (log, appended))
  (hfits : ∀ m ∈ appended, m.Fits ext config)

include hlaw hrun hfits

theorem replay_eq_appended_of_le (hle : log.current.id ≤ 9) :
    (log.replayWithPolicy ext policy).mutations = appended := by
  obtain ⟨hist, inv, rfl, hconfig, -⟩ := (LogInv.openLog_empty config).appendAll hrun
  rw [nil_append] at inv
  exact inv.replay_eq_of_le (hconfig ▸ hlaw)
    (fun e he => hconfig ▸ hfits e.2 (mem_map_of_mem he)) policy hle

theorem replay_ne_appended_of_lt (hnodup : appended.Nodup)
    (hall : appended.length = calls.length) (hlt : 9 < log.current.id) :
    (log.replayWithPolicy ext policy).mutations ≠ appended := by
  obtain ⟨hist, inv, rfl, hconfig, hstarted⟩ := (LogInv.openLog_empty config).appendAll hrun
  rw [nil_append] at inv
  have hid := LogInv.openLog_empty_id config
  obtain ⟨⟨k, m⟩, hm, rfl⟩ := hstarted hall 2 (by omega) (by omega)
  obtain ⟨⟨k', m'⟩, hm', rfl⟩ := hstarted hall 10 (by omega) (by omega)
  exact inv.replay_ne (hconfig ▸ hlaw)
    (fun e he => hconfig ▸ hfits e.2 (mem_map_of_mem he)) policy hnodup hm hm'

/-- A run of appends within nine segments is replayed exactly: every appended mutation once, in
order. A run without failures that has gone further is not, if its mutations are distinct. -/
theorem replay_eq_appended_iff :
    (log.current.id ≤ 9 → (log.replayWithPolicy ext policy).mutations = appended) ∧
      (appended.Nodup → appended.length = calls.length →
        ((log.replayWithPolicy ext policy).mutations = appended ↔ log.current.id ≤ 9)) := by
  have hle := replay_eq_appended_of_le policy hlaw hrun hfits
  refine ⟨hle, fun hnodup hall => ⟨fun heq => ?_, hle⟩⟩
  by_contra hgt
  exact replay_ne_appended_of_lt policy hlaw hrun hfits hnodup hall (by omega) heq

end

section

/-- Encodes and decodes the given mutations. -/
def jsonOf (ms : List Mutation) : LogExternal where
  toExternal := storedBlocks
  toVec m := if m ∈ ms then .ok m.jsonVec else .error "unknown mutation"
  fromSlice b :=
    match ms.find? fun m => m.jsonVec = b with
    | some m => .ok m
    | none => .error "unknown text"

variable {config : CommitLogConfig}

theorem jsonOf_lawful (hnodup : (ms.map Mutation.jsonVec).Nodup)
    (hcodec : config.codec = plainSegmentWriter) :
    (jsonOf ms).Lawful config where
  external := storedBlocks_lawful
  codec := hcodec ▸ plainSegmentWriter_lawful
  fromSlice m payload h := by
    obtain ⟨hm, rfl⟩ : m ∈ ms ∧ m.jsonVec = payload := by
      simpa [jsonOf, ite_eq_iff] using h
    obtain ⟨m', hfind⟩ : ∃ m', (ms.find? fun x => x.jsonVec = m.jsonVec) = some m' :=
      Option.isSome_iff_exists.mp (List.find?_isSome.mpr ⟨m, hm, by simp⟩)
    have htext : m'.jsonVec = m.jsonVec := by simpa using List.find?_some hfind
    have heq := inj_on_of_nodup_map hnodup (mem_of_find?_eq_some hfind) hm htext
    simp only [jsonOf, hfind, heq]

/-- One row of the partition `[0]`. -/
def oneInsert : Mutation where
  keyspace := "ks"
  table := "t"
  partitionKey := [0]
  rows := [⟨[0], [⟨"v", some [1], 10, 0, none, false⟩], false, none⟩]
  timestamp := 10

def nineInserts : List Mutation :=
  [1, 2, 3, 4, 5, 6, 7, 8, 9].map fun key => { oneInsert with partitionKey := [key] }

theorem Mutation.fits_of_json_lt (h : m.json.utf8ByteSize < 2 ^ 32)
    (hcodec : config.codec = plainSegmentWriter) (hplain : config.compressionEnabled = false) :
    m.Fits (jsonOf ms) config := by
  intro payload hvec entry henc
  obtain ⟨-, rfl⟩ : m ∈ ms ∧ m.jsonVec = payload := by
    simpa [jsonOf, ite_eq_iff] using hvec
  have hcompress : compressEntry (jsonOf ms).toExternal config.segmentFlags m.jsonVec =
      (0, m.jsonVec) := by
    simp [compressEntry, CommitLogConfig.segmentFlags, hplain]
  have hentry : entry = (0, m.jsonVec) := by
    rw [hcodec] at henc
    exact (Except.ok.inj henc).symm.trans hcompress
  rw [hentry, hcompress]
  exact ⟨h, fun habs => absurd habs (by simp)⟩

/-- Segments that are full as soon as they have their header. -/
def fullSegments : CommitLogConfig := { maxSegmentSize := 16 }

/-- A log with one segment for each mutation, and an empty one. -/
def oneEach (ms : List Mutation) : CommitLog :=
  ((openLog fullSegments ∅).appendAll (jsonOf ms) (ms.map (·, 0))).1

/-- The texts of the mutations differ and fit, and all of them are appended. -/
structure AppendsAll (ms : List Mutation) : Prop where
  nodup : (ms.map Mutation.jsonVec).Nodup
  fits : ∀ m ∈ ms, m.json.utf8ByteSize < 2 ^ 32
  appended : ((openLog fullSegments ∅).appendAll (jsonOf ms) (ms.map (·, 0))).2 = ms

namespace AppendsAll

theorem lawful (h : AppendsAll ms) : (jsonOf ms).Lawful fullSegments := jsonOf_lawful h.nodup rfl

theorem appendAll_eq (h : AppendsAll ms) :
    (openLog fullSegments ∅).appendAll (jsonOf ms) (ms.map (·, 0)) = (oneEach ms, ms) :=
  Prod.ext rfl h.appended

theorem fits_oneEach (h : AppendsAll ms) : ∀ m ∈ ms, m.Fits (jsonOf ms) fullSegments :=
  fun m hm => Mutation.fits_of_json_lt (h.fits m hm) rfl rfl

end AppendsAll

theorem appendsAll_nineInserts : AppendsAll nineInserts :=
  ⟨by decide +kernel, by decide +kernel, by decide +kernel⟩

theorem appendsAll_threeInserts : AppendsAll (nineInserts.take 3) :=
  ⟨by decide +kernel, by decide +kernel, by decide +kernel⟩

/-- Three mutations come back in their order; with nine of them there are ten segments. -/
theorem replay_eq_appended_iff_oneEach :
    ((oneEach (nineInserts.take 3)).replayWithPolicy (jsonOf (nineInserts.take 3))
      .stopOnCorrupt).mutations = nineInserts.take 3 ∧
    (((oneEach nineInserts).replayWithPolicy (jsonOf nineInserts) .stopOnCorrupt).mutations =
      nineInserts ↔ (oneEach nineInserts).current.id ≤ 9) := by
  have hthree := appendsAll_threeInserts
  have hnine := appendsAll_nineInserts
  exact ⟨(replay_eq_appended_iff .stopOnCorrupt hthree.lawful hthree.appendAll_eq
      hthree.fits_oneEach).1 (by decide +kernel),
    (replay_eq_appended_iff .stopOnCorrupt hnine.lawful hnine.appendAll_eq
      hnine.fits_oneEach).2 (List.Nodup.of_map _ hnine.nodup) rfl⟩

/-- The insert in segment 10 is replayed before the one in segment 2. -/
theorem not_replay_nineSegments :
    ((oneEach nineInserts).replayWithPolicy (jsonOf nineInserts) .stopOnCorrupt).mutations ≠
      nineInserts := by
  have hnine := appendsAll_nineInserts
  exact replay_ne_appended_of_lt .stopOnCorrupt hnine.lawful hnine.appendAll_eq hnine.fits_oneEach
    (List.Nodup.of_map _ hnine.nodup) rfl (by decide +kernel)

end

end CassandraVerified.Storage
