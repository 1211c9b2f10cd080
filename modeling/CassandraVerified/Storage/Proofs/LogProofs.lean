import CassandraVerified.Storage.CommitLog.Log
import CassandraVerified.Storage.Proofs.SegmentProofs

/-!
# Proofs: the commit log

The invariant `LogInv` ties a log to the history of its appends: which mutation went to which
segment, in order. One lemma for each operation says that it is kept, and `replay_mutations` reads
the history back from the files that are still there.
-/

namespace CassandraVerified.Storage

open List
open Std (ExtTreeMap)
open CommitLog

variable {id k cdcUsed : Nat} {m : Mutation} {payload : Bytes} {log' : CommitLog}

theorem toList_segmentFilename (id : Nat) :
    (segmentFilename id).toList = "CommitLog-".toList ++ Nat.toDigits 10 id ++ ".log".toList := by
  simp [segmentFilename]

theorem segmentNumber?_segmentFilename (id : Nat) :
    segmentNumber? (segmentFilename id) = some (Nat.toDigits 10 id) := by
  have hdrop : (segmentFilename id).toList.drop "CommitLog-".toList.length =
      Nat.toDigits 10 id ++ ".log".toList := by
    rw [toList_segmentFilename, append_assoc, drop_left']
    rfl
  have hpre : "CommitLog-".toList.isPrefixOf (segmentFilename id).toList = true := by
    rw [ isPrefixOf_iff_prefix, toList_segmentFilename, append_assoc]
    exact prefix_append _ _
  have hpost : ".log".toList.isSuffixOf (Nat.toDigits 10 id ++ ".log".toList) = true := by
    rw [isSuffixOf_iff_suffix]
    exact suffix_append _ _
  have hlen : (segmentFilename id).toList.length - "CommitLog-".toList.length -
      ".log".toList.length = (Nat.toDigits 10 id).length := by
    rw [toList_segmentFilename]
    simp only [length_append]
    omega
  unfold segmentNumber?
  simp only [hdrop, hpre, hpost, hlen, Bool.and_self, if_true, take_left']

theorem segmentFilename_injective : Function.Injective segmentFilename := by
  intro a b h
  have hdigits : Nat.toDigits 10 a = Nat.toDigits 10 b := by
    have hnum := congrArg segmentNumber? h
    rwa [segmentNumber?_segmentFilename, segmentNumber?_segmentFilename, Option.some.injEq] at hnum
  rw [← Nat.ofDigitChars_ten_toDigits (n := a), hdigits, Nat.ofDigitChars_ten_toDigits]

theorem segmentFilename_inj {a b : Nat} : segmentFilename a = segmentFilename b ↔ a = b :=
  segmentFilename_injective.eq_iff

theorem stripPlus_toDigits (n : Nat) : stripPlus (Nat.toDigits 10 n) = Nat.toDigits 10 n := by
  unfold stripPlus
  split
  · next cs hcs =>
    have hmem : '+' ∈ Nat.toDigits 10 n := by simp [hcs]
    exact absurd (Nat.isDigit_of_mem_toDigits (by decide) (by decide) hmem) (by decide)
  · rfl

theorem eq_of_parseSegmentFilename {id' : Nat}
    (h : parseSegmentFilename (segmentFilename id) = some id') : id' = id := by
  rw [parseSegmentFilename, segmentNumber?_segmentFilename, Option.bind_some, parseU64] at h
  simp only [stripPlus_toDigits, Option.ite_none_right_eq_some, Option.some.injEq,
    Nat.ofDigitChars_ten_toDigits] at h
  exact h.2.symm

section

variable (ext : LogExternal) (config : CommitLogConfig)

/-- The encoded mutations that a history has put in segment `k`. -/
def payloadsOf (hist : List (Nat × Mutation)) (k : Nat) : List Bytes :=
  (hist.filter (·.1 = k)).filterMap fun e => (ext.toVec e.2).toOption

def segmentBytes (hist : List (Nat × Mutation)) (k : Nat) : Bytes :=
  segmentHeader k config.segmentFlags ++
    recordsOf ext.toExternal config.codec config.segmentFlags (payloadsOf ext hist k)

/-- The mutation can be written: it has an encoding, and the codec takes it. -/
def Encodes (m : Mutation) : Prop := ∃ payload entry, ext.toVec m = .ok payload ∧
    encodeEntry ext.toExternal config.codec config.segmentFlags payload = .ok entry

end

/-- The log holds the history `hist` of appends, up to files of segments with ids at most `floor`,
which may be gone. -/
structure LogInv (ext : LogExternal) (log : CommitLog) (hist : List (Nat × Mutation))
    (floor : Nat) : Prop where
  next : log.nextSegmentId = log.current.id + 1
  floor_lt : floor < log.current.id
  file : log.current.file = segmentBytes ext log.config hist log.current.id
  size : log.current.size = log.current.file.length
  flags : log.current.flags = log.config.segmentFlags
  writable : log.current.writable = true
  /-- The file of every closed segment above the floor is there. -/
  closed : ∀ k, floor < k → k < log.current.id →
    log.dir[segmentFilename k]? = some (segmentBytes ext log.config hist k)
  /-- Nothing else is there than files of closed segments. -/
  known : ∀ name bytes, log.dir[name]? = some bytes → ∃ k, 1 ≤ k ∧ k < log.current.id ∧
    name = segmentFilename k ∧ bytes = segmentBytes ext log.config hist k
  pool : ∀ name ∈ log.recyclePool, ∃ k, k ≤ floor ∧ name = segmentFilename k
  ids : ∀ e ∈ hist, 1 ≤ e.1 ∧ e.1 ≤ log.current.id
  sorted : hist.Pairwise fun a b => a.1 ≤ b.1
  encodes : ∀ e ∈ hist, Encodes ext log.config e.2

namespace LogInv

variable {ext : LogExternal} {log : CommitLog} {hist : List (Nat × Mutation)} {floor : Nat}

theorem payloadsOf_eq_nil (h : ∀ e ∈ hist, e.1 ≠ k) : payloadsOf ext hist k = [] := by
  have hfilter : hist.filter (·.1 = k) = [] := by
    rw [filter_eq_nil_iff]
    intro e he
    simpa using h e he
  simp [payloadsOf, hfilter]

theorem openLog_empty_id (config : CommitLogConfig) : (openLog config ∅).current.id = 1 := rfl

attribute [local simp] Segment.createWithFlags openLog

theorem openLog_empty (config : CommitLogConfig) : LogInv ext (openLog config ∅) [] 0 where
  next := rfl
  floor_lt := by simp
  file := by
    simp [segmentBytes, payloadsOf, recordsOf]
  size := by simp
  flags := rfl
  writable := rfl
  closed k h0 hk := absurd hk (by rw [openLog_empty_id]; omega)
  known name bytes h := absurd h (by simp)
  pool name h := absurd h (by simp)
  ids e h := absurd h (by simp)
  sorted := List.Pairwise.nil
  encodes e h := absurd h (by simp)

theorem files_known (inv : LogInv ext log hist floor) {name : String} {bytes : Bytes}
    (h : log.files[name]? = some bytes) : ∃ k, 1 ≤ k ∧ k ≤ log.current.id ∧
      name = segmentFilename k ∧ bytes = segmentBytes ext log.config hist k := by
  simp only [files, ExtTreeMap.getElem?_insert, Std.compare_eq_iff_eq] at h
  split at h
  · next hname =>
    exact ⟨log.current.id, Nat.lt_of_le_of_lt (Nat.zero_le _) inv.floor_lt, le_rfl, hname.symm,
      (Option.some.inj h).symm.trans inv.file⟩
  · obtain ⟨k, h1, hk, hname, hbytes⟩ := inv.known name bytes h
    exact ⟨k, h1, hk.le, hname, hbytes⟩

theorem files_closed (inv : LogInv ext log hist floor) (hfloor : floor < k)
    (hk : k ≤ log.current.id) :
    log.files[segmentFilename k]? = some (segmentBytes ext log.config hist k) := by
  simp only [files, ExtTreeMap.getElem?_insert, Std.compare_eq_iff_eq, segmentFilename_inj]
  split
  · next heq => rw [← heq, inv.file]
  · next hne => exact inv.closed k hfloor (by omega)

/-- What a rotation does: the next segment is empty, and only a file from the pool may be gone. -/
theorem rotate_spec (log : CommitLog) : log.rotate.config = log.config ∧
      log.rotate.current = .createWithFlags log.nextSegmentId log.config.segmentFlags ∧
      log.rotate.nextSegmentId = log.nextSegmentId + 1 ∧
      (∀ name ∈ log.rotate.recyclePool, name ∈ log.recyclePool) ∧
      (∀ name, name ∉ log.recyclePool → log.rotate.dir[name]? = log.files[name]?) ∧
      (∀ (name : String) (bytes : Bytes), log.rotate.dir[name]? = some bytes →
        log.files[name]? = some bytes) := by
  unfold CommitLog.rotate CommitLog.createOrRecycleSegment
  cases hpool : log.recyclePool with
  | nil =>
    simp only
    exact ⟨trivial, trivial, trivial, fun _ h => h, fun _ _ => trivial, fun _ _ h => h⟩
  | cons path pool =>
    simp only [ExtTreeMap.getElem?_erase, Std.compare_eq_iff_eq]
    refine ⟨trivial, trivial, trivial, fun _ h => mem_cons_of_mem _ h, ?_, ?_⟩
    · intro name hname
      have hne : path ≠ name := fun heq => hname (heq ▸ mem_cons_self)
      rw [if_neg hne]
    · intro name bytes h
      split at h
      · exact absurd h (by simp)
      · exact h

theorem rotate (inv : LogInv ext log hist floor) : LogInv ext log.rotate hist floor := by
  obtain ⟨hconfig, hcurrent, hnext, hpool, hkeep, hsub⟩ := rotate_spec log
  have hid : log.rotate.current.id = log.current.id + 1 := by
    rw [hcurrent, ← inv.next]
    rfl
  have hnone : ∀ e ∈ hist, e.1 ≠ log.nextSegmentId := fun e he => by
    have hle := (inv.ids e he).2
    have hnext := inv.next
    omega
  refine ⟨?_, ?_, ?_, ?_, ?_, ?_, ?_, ?_, ?_, ?_, inv.sorted, ?_⟩
  · rw [hid, hnext, inv.next]
  · have hlt := inv.floor_lt
    omega
  · rw [hcurrent, hconfig]
    simp [segmentBytes, payloadsOf_eq_nil hnone, recordsOf]
  · rw [hcurrent]
    simp
  · rw [hcurrent, hconfig]
    rfl
  · rw [hcurrent]
    rfl
  · -- A file above the floor is not in the pool, so it is still there.
    intro k hk hlt
    have hnot : segmentFilename k ∉ log.recyclePool := fun hmem => by
      obtain ⟨k', hk', hname⟩ := inv.pool _ hmem
      rw [segmentFilename_inj] at hname
      omega
    rw [hkeep _ hnot, hconfig, inv.files_closed hk (by omega)]
  · intro name bytes h
    obtain ⟨k, h1, hk, hname, hbytes⟩ := inv.files_known (hsub name bytes h)
    exact ⟨k, h1, by omega, hname, hconfig ▸ hbytes⟩
  · exact fun name h => inv.pool name (hpool name h)
  · intro e he
    have hids := inv.ids e he
    omega
  · exact fun e he => hconfig ▸ inv.encodes e he

theorem makeRoom (inv : LogInv ext log hist floor) (payload : Bytes) :
    LogInv ext (log.makeRoom payload) hist floor := by
  unfold CommitLog.makeRoom
  split
  · exact inv.rotate
  · exact inv

theorem makeRoom_config (log : CommitLog) (payload : Bytes) :
    (log.makeRoom payload).config = log.config := by
  unfold CommitLog.makeRoom
  split
  · exact (rotate_spec log).1
  · rfl

theorem makeRoom_id (inv : LogInv ext log hist floor) (payload : Bytes) :
    log.current.id ≤ (log.makeRoom payload).current.id ∧
      (log.makeRoom payload).current.id ≤ log.current.id + 1 := by
  unfold CommitLog.makeRoom
  split
  · rw [(rotate_spec log).2.1, inv.next]
    exact ⟨Nat.le_succ _, le_rfl⟩
  · exact ⟨le_rfl, Nat.le_succ _⟩

theorem payloadsOf_concat (h : ext.toVec m = .ok payload) (hist : List (Nat × Mutation))
    (id k : Nat) :
    payloadsOf ext (hist ++ [(id, m)]) k =
      if id = k then payloadsOf ext hist k ++ [payload] else payloadsOf ext hist k := by
  by_cases hk : id = k
  · simp [payloadsOf, hk, h, Except.toOption]
  · simp [payloadsOf, hk]

variable {entry : UInt8 × Bytes}

theorem recordsOf_concat {e : External} {codec : SegmentCodec} {flags : SegmentFlags}
    (payloads : List Bytes) (h : encodeEntry e codec flags payload = .ok entry) :
    recordsOf e codec flags (payloads ++ [payload]) =
      recordsOf e codec flags payloads ++ record e entry := by
  induction payloads with
  | nil => simp [recordsOf, h]
  | cons p ps ih =>
    simp only [cons_append, recordsOf, ih]
    split <;> simp

/-- An encoded payload written to the current segment. -/
theorem appendEntry (inv : LogInv ext log hist floor) (hvec : ext.toVec m = .ok payload)
    (henc : encodeEntry ext.toExternal log.config.codec log.config.segmentFlags payload =
      .ok entry) (mirrored : Bool) :
    LogInv ext
      { log with
        current := { log.current with
          file := log.current.file ++ record ext.toExternal entry
          size := log.current.size + (4 + 1 + 4 + entry.2.length) }
        cdcCurrentSegmentMirrored := mirrored }
      (hist ++ [(log.current.id, m)]) floor := by
  have hbytes : ∀ k, k ≠ log.current.id →
      segmentBytes ext log.config (hist ++ [(log.current.id, m)]) k =
        segmentBytes ext log.config hist k := fun k hk => by
    rw [segmentBytes, payloadsOf_concat hvec, if_neg (Ne.symm hk), segmentBytes]
  have hpos : 1 ≤ log.current.id := Nat.lt_of_le_of_lt (Nat.zero_le _) inv.floor_lt
  refine ⟨inv.next, inv.floor_lt, ?_, ?_, inv.flags, inv.writable, ?_, ?_, inv.pool, ?_, ?_, ?_⟩
  · simp [segmentBytes, payloadsOf_concat hvec, recordsOf_concat _ henc, inv.file]
  · simp [inv.size]
  · intro k hk hlt
    rw [hbytes k (Nat.ne_of_lt hlt), inv.closed k hk hlt]
  · intro name bytes h
    obtain ⟨k, h1, hlt, hname, heq⟩ := inv.known name bytes h
    exact ⟨k, h1, hlt, hname, by rw [hbytes k (Nat.ne_of_lt hlt), heq]⟩
  · intro e he
    rcases mem_append.mp he with he | he
    · exact inv.ids e he
    · obtain rfl := mem_singleton.mp he
      exact ⟨hpos, le_rfl⟩
  · rw [pairwise_append]
    refine ⟨inv.sorted, pairwise_singleton _ _, fun a ha b hb => ?_⟩
    obtain rfl := mem_singleton.mp hb
    exact (inv.ids a ha).2
  · intro e he
    rcases mem_append.mp he with he | he
    · exact inv.encodes e he
    · obtain rfl := mem_singleton.mp he
      exact ⟨payload, entry, hvec, henc⟩

/-- What a successful append did: after making room it wrote one record to the current segment. -/
theorem append_ok {offset : Nat} (hflags : ∀ payload, (log.makeRoom payload).current.flags =
      (log.makeRoom payload).config.segmentFlags)
    (h : log.append ext m cdcUsed = (log', .ok (id, offset))) :
    ∃ payload entry mirrored, ext.toVec m = .ok payload ∧
      encodeEntry ext.toExternal (log.makeRoom payload).config.codec
        (log.makeRoom payload).config.segmentFlags payload = .ok entry ∧
      id = (log.makeRoom payload).current.id ∧
      log' = { log.makeRoom payload with
        current := { (log.makeRoom payload).current with
          file := (log.makeRoom payload).current.file ++ record ext.toExternal entry
          size := (log.makeRoom payload).current.size + (4 + 1 + 4 + entry.2.length) }
        cdcCurrentSegmentMirrored := mirrored } := by
  unfold append at h
  split at h
  · exact absurd h (by simp)
  · next payload hvec =>
    simp only at h
    split at h
    · exact absurd h (by simp)
    · split at h
      · exact absurd h (by simp)
      · next seg off happ =>
        unfold Segment.appendEntryWithCodec at happ
        split at happ
        · split at happ
          · next entry henc =>
            obtain ⟨rfl, rfl⟩ : _ = seg ∧ _ = off := by simpa using happ
            obtain ⟨rfl, rfl, -⟩ : _ = log' ∧ _ = id ∧ _ := by simpa using h
            exact ⟨payload, entry, _, hvec, hflags payload ▸ henc, rfl, rfl⟩
          · exact absurd happ (by simp)
        · exact absurd happ (by simp)

theorem append_error {e : CommitLogError} (h : log.append ext m cdcUsed = (log', .error e)) :
    log' = log ∨ ∃ payload, log' = log.makeRoom payload := by
  unfold append at h
  split at h
  · exact Or.inl (congrArg Prod.fst h).symm
  · next payload _ =>
    refine Or.inr ⟨payload, ?_⟩
    simp only at h
    split at h
    · exact (congrArg Prod.fst h).symm
    · split at h
      · exact (congrArg Prod.fst h).symm
      · exact absurd h (by simp)

theorem append (inv : LogInv ext log hist floor) {offset : Nat}
    (h : log.append ext m cdcUsed = (log', .ok (id, offset))) :
    LogInv ext log' (hist ++ [(id, m)]) floor ∧ id = log'.current.id := by
  obtain ⟨payload, entry, mirrored, hvec, henc, rfl, rfl⟩ :=
    append_ok (fun payload => (inv.makeRoom payload).flags) h
  exact ⟨(inv.makeRoom payload).appendEntry hvec henc mirrored, rfl⟩

theorem append_of_error (inv : LogInv ext log hist floor) {e : CommitLogError}
    (h : log.append ext m cdcUsed = (log', .error e)) : LogInv ext log' hist floor := by
  rcases append_error h with rfl | ⟨payload, rfl⟩
  · exact inv
  · exact inv.makeRoom payload

theorem append_frame (inv : LogInv ext log hist floor)
    {result : Except CommitLogError (Nat × Nat)} (h : log.append ext m cdcUsed = (log', result)) :
    log'.config = log.config ∧ log.current.id ≤ log'.current.id ∧
      log'.current.id ≤ log.current.id + 1 := by
  have hroom := fun payload => And.intro (makeRoom_config log payload) (inv.makeRoom_id payload)
  cases result with
  | ok r =>
    obtain ⟨payload, entry, mirrored, -, -, -, rfl⟩ :=
      append_ok (fun payload => (inv.makeRoom payload).flags) h
    exact hroom payload
  | error e =>
    rcases append_error h with rfl | ⟨payload, rfl⟩
    · exact ⟨rfl, le_rfl, Nat.le_succ _⟩
    · exact hroom payload

theorem mono_floor (inv : LogInv ext log hist floor) {floor' : Nat} (hle : floor ≤ floor')
    (hlt : floor' < log.current.id) : LogInv ext log hist floor' :=
  { inv with
    floor_lt := hlt
    closed := fun k hk hcur => inv.closed k (by omega) hcur
    pool := fun name hname => by
      obtain ⟨k, hk, heq⟩ := inv.pool name hname
      exact ⟨k, hk.trans hle, heq⟩ }

theorem discardIfCompleted_frame (upTo : Nat) (log : CommitLog) (name : String) :
    (log.discardIfCompleted upTo name).current = log.current ∧
      (log.discardIfCompleted upTo name).config = log.config := by
  unfold discardIfCompleted discardSegment
  split
  · split
    · split <;> exact ⟨rfl, rfl⟩
    · exact ⟨rfl, rfl⟩
  · exact ⟨rfl, rfl⟩

theorem discardCompletedSegments_frame (log : CommitLog) (upTo : Nat) (listing : List String) :
    (log.discardCompletedSegments upTo listing).current = log.current ∧
      (log.discardCompletedSegments upTo listing).config = log.config := by
  unfold discardCompletedSegments
  induction listing generalizing log with
  | nil => exact ⟨rfl, rfl⟩
  | cons name listing ih =>
    obtain ⟨hcurrent, hconfig⟩ := discardIfCompleted_frame upTo log name
    obtain ⟨hcurrent', hconfig'⟩ := ih (log.discardIfCompleted upTo name)
    exact ⟨hcurrent'.trans hcurrent, hconfig'.trans hconfig⟩

theorem discardSegment (inv : LogInv ext log hist floor) (hk : k ≤ floor) :
    LogInv ext (log.discardSegment (segmentFilename k)) hist floor := by
  unfold CommitLog.discardSegment
  split
  · refine { inv with pool := fun name hname => ?_ }
    rcases mem_cons.mp hname with rfl | hname
    · exact ⟨k, hk, rfl⟩
    · exact inv.pool name hname
  · refine { inv with closed := fun k' hk' hlt => ?_, known := fun name bytes h => ?_ }
    · have hne : ¬ segmentFilename k = segmentFilename k' := by
        rw [segmentFilename_inj]
        omega
      simp only [ExtTreeMap.getElem?_erase, Std.compare_eq_iff_eq, if_neg hne]
      exact inv.closed k' hk' hlt
    · simp only [ExtTreeMap.getElem?_erase] at h
      split at h
      · exact absurd h (by simp)
      · exact inv.known name bytes h

theorem discardIfCompleted (inv : LogInv ext log hist floor) {upTo : Nat} (hle : upTo ≤ floor) :
    LogInv ext (log.discardIfCompleted upTo (segmentFilename k)) hist floor := by
  unfold CommitLog.discardIfCompleted
  split
  · next id hid =>
    obtain rfl := eq_of_parseSegmentFilename hid
    split
    · next h => exact inv.discardSegment (h.1.trans hle)
    · exact inv
  · exact inv

theorem discardCompletedSegments (inv : LogInv ext log hist floor) {upTo : Nat}
    (hupTo : upTo < log.current.id) {listing : List String}
    (hlisting : ∀ name ∈ listing, ∃ k, name = segmentFilename k) :
    LogInv ext (log.discardCompletedSegments upTo listing) hist (max floor upTo) := by
  have inv' := inv.mono_floor (le_max_left floor upTo) (max_lt inv.floor_lt hupTo)
  clear inv hupTo
  unfold CommitLog.discardCompletedSegments
  induction listing generalizing log with
  | nil => exact inv'
  | cons name listing ih =>
    obtain ⟨k, rfl⟩ := hlisting _ mem_cons_self
    exact ih (fun n hn => hlisting n (mem_cons_of_mem _ hn))
      (inv'.discardIfCompleted (le_max_right floor upTo))

/-- The mutations that a history has put in the segment with a given file name. -/
def mutationsIn (hist : List (Nat × Mutation)) (name : String) : List Mutation :=
  hist.filterMap fun e => if segmentFilename e.1 = name then some e.2 else none

theorem mutationsIn_segmentFilename (hist : List (Nat × Mutation)) (k : Nat) :
    mutationsIn hist (segmentFilename k) = (hist.filter (·.1 = k)).map Prod.snd := by
  simp only [mutationsIn, segmentFilename_inj]
  induction hist with
  | nil => rfl
  | cons e hist ih =>
    by_cases he : e.1 = k
    · simp [he, ih]
    · simp [he, ih]

theorem replayEntries_ok (hlaw : ext.Lawful log.config) (policy : CorruptionPolicy)
    (es : List (Nat × Mutation)) (hvec : ∀ e ∈ es, ∃ payload, ext.toVec e.2 = .ok payload) :
    replayEntries ext policy
        ((es.filterMap fun e => (ext.toVec e.2).toOption).map .ok) = (es.map Prod.snd, 0) := by
  induction es with
  | nil => rfl
  | cons e es ih =>
    obtain ⟨payload, hpayload⟩ := hvec e (by simp)
    have hopt : (ext.toVec e.2).toOption = some payload := by
      rw [hpayload]
      rfl
    have hrest := ih fun e' he' => hvec e' (by simp [he'])
    simp [hopt, replayEntries, hrest, hlaw.fromSlice _ _ hpayload]

section

variable (inv : LogInv ext log hist floor) (hlaw : ext.Lawful log.config)
  (hfits : ∀ e ∈ hist, e.2.Fits ext log.config)

include inv hlaw hfits

/-- The payloads of a segment's file are what a reader finds there. -/
theorem readEntries_segmentBytes (policy : CorruptionPolicy) (k : Nat) {seg : Segment}
    (hfile : seg.file = segmentBytes ext log.config hist k) (hsize : seg.size = seg.file.length)
    (hv : seg.version ≥ 2) :
    seg.readEntriesWithCodec ext.toExternal log.config.codec policy =
      (payloadsOf ext hist k).map .ok := by
  have hmem : ∀ p ∈ payloadsOf ext hist k, ∃ e ∈ hist, ext.toVec e.2 = .ok p := by
    intro p hp
    obtain ⟨e, he, hopt⟩ := mem_filterMap.mp hp
    refine ⟨e, (mem_filter.mp he).1, ?_⟩
    cases hvec : ext.toVec e.2 with
    | ok q => exact congrArg _ (by simpa [hvec, Except.toOption] using hopt)
    | error _ => simp [hvec, Except.toOption] at hopt
  have hall : ∀ p ∈ payloadsOf ext hist k, ∃ entry, encodeEntry ext.toExternal log.config.codec
      log.config.segmentFlags p = .ok entry := by
    intro p hp
    obtain ⟨e, he, hvec⟩ := hmem p hp
    obtain ⟨payload, entry, hvec', henc⟩ := inv.encodes e he
    exact ⟨entry, Except.ok.inj (hvec'.symm.trans hvec) ▸ henc⟩
  have hentry : ∀ p ∈ payloadsOf ext hist k, EntryFits ext.toExternal log.config.codec
      log.config.segmentFlags p := by
    intro p hp
    obtain ⟨e, he, hvec⟩ := hmem p hp
    exact hfits e he p hvec
  have hdrop : seg.file.drop headerSize = recordsOf ext.toExternal log.config.codec
      log.config.segmentFlags (payloadsOf ext hist k) := by
    rw [hfile]
    exact drop_left' (length_segmentHeader k _)
  have hlen : seg.size = headerSize + (recordsOf ext.toExternal log.config.codec
      log.config.segmentFlags (payloadsOf ext hist k)).length := by
    rw [hsize, hfile, segmentBytes, length_append, length_segmentHeader]
  set records := recordsOf ext.toExternal log.config.codec log.config.segmentFlags
    (payloadsOf ext hist k) with hrecords
  have hread : readLoop ext.toExternal log.config.codec seg.id seg.version policy seg.size headerSize
      (records.take records.length) = _ :=
    readLoop_recordsOf hlaw.external hlaw.codec hv policy hall hentry hlen.le
  rw [take_length, entriesWithin_of_le hall hlen.ge] at hread
  rw [Segment.readEntriesWithCodec, Segment.readEntriesWithCodecUpTo, hdrop, hread]

/-- Replaying the file of a segment delivers the mutations that were appended to it. -/
theorem replaySegment_segmentBytes (policy : CorruptionPolicy) (k : Nat)
    (result : CommitLog.ReplayResult) :
    (replaySegment ext log.config policy result
        (segmentFilename k, segmentBytes ext log.config hist k)).mutations =
      result.mutations ++ mutationsIn hist (segmentFilename k) := by
  obtain ⟨seg, hopen, hfile, hsize, hv⟩ : ∃ seg, Segment.openForRead (segmentFilename k)
      (segmentBytes ext log.config hist k) = .ok seg ∧
        seg.file = segmentBytes ext log.config hist k ∧ seg.size = seg.file.length ∧
        seg.version ≥ 2 :=
    ⟨_, openForRead_segmentHeader _ k log.config.segmentFlags _, rfl, rfl, UInt8.le_refl 2⟩
  have hread := inv.readEntries_segmentBytes hlaw hfits policy k hfile hsize hv
  have hentries := replayEntries_ok hlaw policy (hist.filter (·.1 = k)) fun e he => by
    obtain ⟨payload, -, hvec, -⟩ := inv.encodes e (mem_filter.mp he).1
    exact ⟨payload, hvec⟩
  simp only [replaySegment, hopen]
  rw [hread, payloadsOf, hentries, mutationsIn_segmentFilename]

theorem foldl_replaySegment (policy : CorruptionPolicy) (files : List (String × Bytes))
    (hfiles : ∀ f ∈ files, ∃ k, f = (segmentFilename k, segmentBytes ext log.config hist k))
    (result : CommitLog.ReplayResult) :
    (files.foldl (replaySegment ext log.config policy) result).mutations =
      result.mutations ++ files.flatMap fun f => mutationsIn hist f.1 := by
  induction files generalizing result with
  | nil => simp
  | cons f files ih =>
    obtain ⟨k, rfl⟩ := hfiles f (by simp)
    rw [foldl_cons, ih (fun f hf => hfiles f (by simp [hf])),
      inv.replaySegment_segmentBytes hlaw hfits, flatMap_cons, append_assoc]

theorem replay_mutations (policy : CorruptionPolicy) : (log.replayWithPolicy ext policy).mutations =
      log.files.keys.flatMap (mutationsIn hist) := by
  have hfiles : ∀ f ∈ log.files.toList,
      ∃ k, f = (segmentFilename k, segmentBytes ext log.config hist k) := by
    intro f hf
    obtain ⟨k, -, -, hname, hbytes⟩ := inv.files_known
      (ExtTreeMap.mem_toList_iff_getElem?_eq_some.mp hf)
    exact ⟨k, Prod.ext hname hbytes⟩
  have hall : log.segmentFiles = log.files.toList := by
    refine filter_eq_self.mpr fun f hf => ?_
    obtain ⟨k, rfl⟩ := hfiles f hf
    simp [segmentNumber?_segmentFilename]
  rw [replayWithPolicy, hall, inv.foldl_replaySegment hlaw hfits policy _ hfiles,
    ← ExtTreeMap.map_fst_toList_eq_keys, flatMap_map, nil_append]

end

end LogInv

end CassandraVerified.Storage
