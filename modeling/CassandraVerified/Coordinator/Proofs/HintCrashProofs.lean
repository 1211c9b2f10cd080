import CassandraVerified.Coordinator.HintCrash

/-!
# Draining hints after a crash

A reader gives the hints of complete records up to the first oversized one. It fails, and all hints
of its file are lost, when it comes to a torn record that still has its checksum.
-/

namespace CassandraVerified.Coordinator

open Storage (Bytes)
open Wire (leBytes readLe take)
open Fragment SegmentRun HintStore Crc32

variable {E : Type} {ext : HintExternal E} {hint : Hint E} {bs : Bytes}
  {torn : Option (Hint E × Nat)} {hints : List (Hint E)} {filename : String}

theorem length_hintRecord (data : Bytes) : (hintRecord data).length = 8 + data.length := by
  simp [hintRecord]
  omega

def Fits (ext : HintExternal E) (hint : Hint E) : Prop :=
  ∃ data, ext.toVec hint = some data ∧ 8 + data.length ≤ defaultMaxSegmentSize

theorem Fits.recordOf_ne_nil (h : Fits ext hint) : recordOf ext hint ≠ [] := by
  obtain ⟨data, hdata, -⟩ := h
  rw [recordOf, hdata, ← List.length_pos_iff, length_hintRecord]
  omega

theorem length_lt_of_fits {data : Bytes} (h : 8 + data.length ≤ defaultMaxSegmentSize) :
    data.length < 256 ^ 4 := by
  rw [defaultMaxSegmentSize] at h
  omega

theorem crc32_lt (data : Bytes) : (crc32 data).toNat < 256 ^ 4 := (crc32 data).toNat_lt

theorem nextEntry_append {data : Bytes} (hlen : data.length < 256 ^ 4) (tail : Bytes) :
    nextEntry ext (leBytes 4 (crc32 data).toNat ++ leBytes 4 data.length ++ tail) =
      entryData ext (crc32 data).toNat data.length tail := by
  simp [nextEntry, Wire.readLe_leBytes_of_lt (crc32_lt data), Wire.readLe_leBytes_of_lt hlen]

/-- A complete record: an oversized hint is taken for the end of the file. -/
theorem nextEntry_record (hext : ext.Lawful) (hfits : Fits ext hint) (rest : Bytes) :
    nextEntry ext (recordOf ext hint ++ rest) =
      .ok (if oversize ext hint then .stop else .hint hint rest) := by
  obtain ⟨data, hdata, hlen⟩ := hfits
  have hrecord : recordOf ext hint ++ rest =
      leBytes 4 (crc32 data).toNat ++ leBytes 4 data.length ++ (data ++ rest) := by
    simp [recordOf, hdata, hintRecord]
  rw [hrecord, nextEntry_append (length_lt_of_fits hlen), entryData, Wire.take_append rfl]
  by_cases hmax : data.length > maxHintLength <;> simp [oversize, hdata, hmax, hext hint data hdata]

/-- A torn record is taken for the end of the file or makes the reader fail. -/
theorem nextEntry_torn (hfits : Fits ext hint) {kept : Nat}
    (hkept : kept < (recordOf ext hint).length) :
    nextEntry ext ((recordOf ext hint).take kept) =
      if failsReading ext (hint, kept) then .error .unexpectedEof else .ok .stop := by
  obtain ⟨data, hdata, hlen⟩ := hfits
  have hrecord : recordOf ext hint =
      leBytes 4 (crc32 data).toNat ++ leBytes 4 data.length ++ data := by
    simp [recordOf, hdata, hintRecord]
  have hlarge : oversize ext hint = decide (data.length > maxHintLength) := by
    simp [oversize, hdata]
  rw [hrecord] at hkept ⊢
  simp only [List.length_append, Wire.length_leBytes] at hkept
  by_cases h4 : kept < 4
  · have hnone : readLe 4 ((leBytes 4 (crc32 data).toNat ++ leBytes 4 data.length ++
        data).take kept) = none := by
      rw [Wire.readLe_eq_none, List.length_take]
      omega
    have hends : failsReading ext (hint, kept) = false := by simp [failsReading, h4]
    rw [hends]
    simp only [nextEntry, hnone]
    rfl
  by_cases h8 : kept < 8
  · have hfails : failsReading ext (hint, kept) = true := by
      simp [failsReading, h8, not_lt.1 h4]
    have htake : (leBytes 4 (crc32 data).toNat ++ leBytes 4 data.length ++ data).take kept =
        leBytes 4 (crc32 data).toNat ++ (leBytes 4 data.length ++ data).take (kept - 4) := by
      rw [List.append_assoc, List.take_append, Wire.length_leBytes,
        List.take_of_length_le (by simp; omega)]
    have hnone : readLe 4 ((leBytes 4 data.length ++ data).take (kept - 4)) = none := by
      rw [Wire.readLe_eq_none, List.length_take]
      omega
    rw [htake, hfails]
    simp only [nextEntry, Wire.readLe_leBytes_of_lt (crc32_lt data), hnone]
    rfl
  · have htake : (leBytes 4 (crc32 data).toNat ++ leBytes 4 data.length ++ data).take kept =
        leBytes 4 (crc32 data).toNat ++ leBytes 4 data.length ++ data.take (kept - 8) := by
      rw [List.take_append, List.take_of_length_le (by simp; omega)]
      simp
    have hfails : failsReading ext (hint, kept) = !decide (data.length > maxHintLength) := by
      simp [failsReading, h8, not_lt.1 h4, hlarge]
    have hnone : take data.length (data.take (kept - 8)) = none := by
      rw [Wire.take_eq_none, List.length_take]
      omega
    rw [htake, nextEntry_append (length_lt_of_fits hlen), entryData, hfails, hnone]
    by_cases hmax : data.length > maxHintLength <;> simp [hmax]

theorem readHints_of_stop (h : nextEntry ext bs = .ok .stop) (fuel : Nat) :
    readHints ext (fuel + 1) bs = .ok [] := by
  simp [readHints, nextHint, h]

theorem readHints_of_error (h : nextEntry ext bs = .error .unexpectedEof) (fuel : Nat) :
    readHints ext (fuel + 1) bs = .error .unexpectedEof := by
  simp [readHints, nextHint, h]

theorem readHints_of_hint {rest : Bytes} (h : nextEntry ext bs = .ok (.hint hint rest))
    (fuel : Nat) :
    readHints ext (fuel + 1) bs = (readHints ext fuel rest).map (hint :: ·) := by
  simp only [readHints, nextHint, h]
  cases readHints ext fuel rest <;> rfl

def Fragment.bytes (ext : HintExternal E) (f : Fragment E) : Bytes :=
  f.complete.flatMap (recordOf ext) ++
    match f.torn with
    | some (hint, kept) => (recordOf ext hint).take kept
    | none => []

/-- All hints of the fragment fit, and the torn record is not complete. -/
structure Fragment.Proper (ext : HintExternal E) (f : Fragment E) : Prop where
  complete : ∀ hint ∈ f.complete, Fits ext hint
  torn : ∀ hint kept, f.torn = some (hint, kept) → Fits ext hint ∧ kept < (recordOf ext hint).length

theorem nextEntry_end (hproper : Fragment.Proper ext ⟨[], torn⟩)
    (hends : ∀ t, torn = some t → failsReading ext t = false) :
    nextEntry ext (bytes ext ⟨[], torn⟩) = .ok .stop := by
  cases torn with
  | none => rfl
  | some t =>
    obtain ⟨hfits, hkept⟩ := hproper.torn t.1 t.2 rfl
    rw [bytes, List.flatMap_nil, List.nil_append, nextEntry_torn hfits hkept, hends t rfl]
    rfl

theorem nextEntry_fails {torn : Hint E × Nat} (hproper : Fragment.Proper ext ⟨[], some torn⟩)
    (hfails : failsReading ext torn = true) :
    nextEntry ext (bytes ext ⟨[], some torn⟩) = .error .unexpectedEof := by
  obtain ⟨hfits, hkept⟩ := hproper.torn torn.1 torn.2 rfl
  rw [bytes, List.flatMap_nil, List.nil_append, nextEntry_torn hfits hkept, hfails]
  rfl

theorem Fragment.bytes_cons (hint : Hint E) (hints : List (Hint E)) (torn : Option (Hint E × Nat)) :
    bytes ext ⟨hint :: hints, torn⟩ = recordOf ext hint ++ bytes ext ⟨hints, torn⟩ := by
  simp [bytes]

theorem Fragment.Proper.tail (h : Fragment.Proper ext ⟨hint :: hints, torn⟩) :
    Fragment.Proper ext ⟨hints, torn⟩ :=
  ⟨fun hint' hmem => h.complete hint' (List.mem_cons_of_mem _ hmem), h.torn⟩

theorem Fragment.readable_cons (hsmall : oversize ext hint = false) :
    Fragment.Readable ext ⟨hint :: hints, torn⟩ ↔ Fragment.Readable ext ⟨hints, torn⟩ := by
  simp [Fragment.Readable, hsmall]

theorem readHints_bytes (hext : ext.Lawful) {complete : List (Hint E)}
    (hproper : Fragment.Proper ext ⟨complete, torn⟩) {fuel : Nat} (hfuel : complete.length < fuel) :
    Fragment.Readable ext ⟨complete, torn⟩ ∧ readHints ext fuel (bytes ext ⟨complete, torn⟩) =
          .ok (complete.takeWhile (! oversize ext ·)) ∨
      ¬ Fragment.Readable ext ⟨complete, torn⟩ ∧
        readHints ext fuel (bytes ext ⟨complete, torn⟩) = .error .unexpectedEof := by
  obtain ⟨fuel, rfl⟩ := Nat.exists_eq_add_one_of_ne_zero (Nat.ne_zero_of_lt hfuel)
  induction complete generalizing fuel with
  | nil =>
    by_cases hends : ∀ t, torn = some t → failsReading ext t = false
    · exact .inl ⟨.inr hends, readHints_of_stop (nextEntry_end hproper hends) fuel⟩
    · obtain ⟨t, rfl, hfails⟩ : ∃ t, torn = some t ∧ failsReading ext t = true := by
        simpa using hends
      refine .inr ⟨?_, readHints_of_error (nextEntry_fails hproper hfails) fuel⟩
      simp [Fragment.Readable, hfails]
  | cons hint hints ih =>
    have hnext := nextEntry_record hext (hproper.complete hint List.mem_cons_self)
      (bytes ext ⟨hints, torn⟩)
    rw [bytes_cons]
    cases hsize : oversize ext hint with
    | true =>
      rw [hsize] at hnext
      refine .inl ⟨.inl ⟨hint, List.mem_cons_self, hsize⟩, ?_⟩
      rw [readHints_of_stop hnext, List.takeWhile_cons, hsize]
      rfl
    | false =>
      rw [hsize] at hnext
      have hfuel' : hints.length < fuel := Nat.lt_of_succ_lt_succ hfuel
      obtain ⟨fuel, rfl⟩ := Nat.exists_eq_add_one_of_ne_zero (Nat.ne_zero_of_lt hfuel')
      rw [readHints_of_hint hnext, readable_cons hsize, List.takeWhile_cons, hsize]
      refine (ih hproper.tail fuel hfuel').imp ?_ ?_
      · rintro ⟨hread, h⟩
        exact ⟨hread, by rw [h]; rfl⟩
      · rintro ⟨hread, h⟩
        exact ⟨hread, by rw [h]; rfl⟩

theorem length_complete_le {f : Fragment E} (hproper : f.Proper ext) :
    f.complete.length ≤ (f.bytes ext).length := by
  have hone : ∀ hint ∈ f.complete, 1 ≤ (recordOf ext hint).length := fun hint hmem =>
    List.length_pos_iff.2 (hproper.complete hint hmem).recordOf_ne_nil
  calc f.complete.length = (f.complete.map fun _ => 1).sum := by simp
    _ ≤ (f.complete.map fun hint => (recordOf ext hint).length).sum := List.sum_le_sum hone
    _ = (f.complete.flatMap (recordOf ext)).length := (List.length_flatMap ..).symm
    _ ≤ (f.bytes ext).length := by simp [bytes]

theorem mem_segmentHints_iff (hext : ext.Lawful) {f : Fragment E} (hproper : f.Proper ext) :
    hint ∈ segmentHints ext (filename, f.bytes ext) ↔
      f.Readable ext ∧ hint ∈ f.complete.takeWhile (! oversize ext ·) := by
  have hfuel : f.complete.length < (f.bytes ext).length + 1 :=
    Nat.lt_succ_of_le (length_complete_le hproper)
  rcases readHints_bytes hext hproper hfuel with ⟨hread, h⟩ | ⟨hread, h⟩ <;>
    simp [segmentHints, readAll, h, hread]

theorem bytes_fragment (hints : List (Hint E)) (kept : Nat) :
    (fragment ext kept hints).bytes ext = (hints.flatMap (recordOf ext)).take kept := by
  induction hints generalizing kept with
  | nil => simp [fragment, bytes]
  | cons hint hints ih =>
    rw [fragment, List.flatMap_cons]
    split_ifs with hfits
    · rw [bytes_cons, List.take_append, List.take_of_length_le hfits]
      exact congrArg _ (ih _)
    · rw [List.take_append_of_le_length (by omega)]
      rfl

theorem proper_fragment (hfits : ∀ hint ∈ hints, Fits ext hint) (kept : Nat) :
    (fragment ext kept hints).Proper ext := by
  induction hints generalizing kept with
  | nil => exact ⟨by simp [fragment], by simp [fragment]⟩
  | cons hint hints ih =>
    have hhead := hfits hint List.mem_cons_self
    have htail := ih fun hint' hmem => hfits hint' (List.mem_cons_of_mem _ hmem)
    rw [fragment]
    split_ifs with hcomplete
    · have hrest := htail (kept - (recordOf ext hint).length)
      refine ⟨?_, hrest.torn⟩
      rintro hint' (_ | hmem)
      · exact hhead
      · exact hrest.complete hint' ‹_›
    · refine ⟨by simp, ?_⟩
      rintro _ _ ⟨⟩
      exact ⟨hhead, not_le.1 hcomplete⟩

theorem isSegmentOf_writerFor (dir : HintDir) (targetId : String) (now : Int64) :
    isSegmentOf targetId (dir.writerFor targetId now).2.filename = true := by
  change isSegmentOf targetId (hintFilename targetId now) = true
  have hsuffix : ".hints".toList <:+ (hintFilename targetId now).toList :=
    ⟨(targetId ++ "-" ++ toString now).toList, by simp [hintFilename]⟩
  have hinit : targetId.toList <+: (hintFilename targetId now).toList :=
    ⟨("-" ++ toString now ++ ".hints").toList, by simp [hintFilename]⟩
  rw [isSegmentOf, Bool.and_eq_true, List.isPrefixOf_iff_prefix, List.isSuffixOf_iff_suffix]
  exact ⟨hinit, hsuffix⟩

@[simp] theorem getD_writerFor (dir : HintDir) (targetId filename : String) (now : Int64) :
    (dir.writerFor targetId now).1.getD filename [] = dir.getD filename [] := by
  simp only [HintDir.writerFor, Std.ExtTreeMap.getD_insert, Std.compare_eq_iff_eq]
  split_ifs with heq
  · rw [heq]
  · rfl

/-- The files of a target hold the records of the hints that were written to them. -/
structure Logged (ext : HintExternal E) (targetId : String) (dir : HintDir)
    (log : String → List (Hint E)) : Prop where
  content : ∀ filename, isSegmentOf targetId filename = true →
    dir.getD filename [] = (log filename).flatMap (recordOf ext)
  segment : ∀ filename, log filename ≠ [] → isSegmentOf targetId filename = true
  fits : ∀ filename, ∀ hint ∈ log filename, Fits ext hint

variable {targetId : String} {dir : HintDir} {log : String → List (Hint E)}

/-- What was written, by the outcome of an append. -/
def logged (log : String → List (Hint E)) (hint : Hint E) (result : HintDir × HintSegmentWriter ×
    Appended) : String → List (Hint E) :=
  if result.2.2 = .written then
    Function.update log result.2.1.filename (log result.2.1.filename ++ [hint])
  else log

theorem filename_append (w : HintSegmentWriter) (dir : HintDir) (hint : Hint E) :
    (w.append ext dir hint).2.1.filename = w.filename := by
  unfold HintSegmentWriter.append
  split
  · rfl
  · dsimp only
    split_ifs <;> rfl

namespace Logged

section

variable (h : Logged ext targetId dir log)

include h

theorem writerFor (now : Int64) : Logged ext targetId (dir.writerFor targetId now).1 log :=
  ⟨fun filename hseg => by rw [getD_writerFor, h.content filename hseg], h.segment, h.fits⟩

theorem append {w : HintSegmentWriter} (hw : isSegmentOf targetId w.filename = true)
    (hint : Hint E) :
    Logged ext targetId (w.append ext dir hint).1 (logged log hint (w.append ext dir hint)) := by
  unfold HintSegmentWriter.append
  cases hdata : ext.toVec hint with
  | none => exact h
  | some data =>
    dsimp only
    split_ifs with hfull
    · exact h
    · have hfits : Fits ext hint := ⟨data, hdata, by omega⟩
      simp only [logged, if_true]
      refine ⟨?_, ?_, ?_⟩
      · intro filename hseg
        by_cases heq : filename = w.filename
        · subst heq
          simp [h.content _ hseg, recordOf, hdata]
        · rw [Function.update_of_ne heq, ← h.content filename hseg]
          simp [Std.ExtTreeMap.getD_insert, Ne.symm heq]
      · intro filename hne
        by_cases heq : filename = w.filename
        · rwa [heq]
        · rw [Function.update_of_ne heq] at hne
          exact h.segment filename hne
      · intro filename hint' hmem
        by_cases heq : filename = w.filename
        · subst heq
          rw [Function.update_self, List.mem_append, List.mem_singleton] at hmem
          rcases hmem with hmem | rfl
          · exact h.fits _ hint' hmem
          · exact hfits
        · rw [Function.update_of_ne heq] at hmem
          exact h.fits filename hint' hmem

theorem appendOrRotate {active : Option HintSegmentWriter}
    (hactive : ∀ w, active = some w → isSegmentOf targetId w.filename = true) (hint : Hint E)
    (clock : HintClock) :
    Logged ext targetId (appendOrRotate ext targetId dir active hint clock).1
        (logged log hint (appendOrRotate ext targetId dir active hint clock)) ∧
      isSegmentOf targetId
        (appendOrRotate ext targetId dir active hint clock).2.1.filename = true := by
  set opened := openSegment targetId dir active clock.opened with hopened
  obtain ⟨hdir, hfile⟩ : Logged ext targetId opened.1 log ∧
      isSegmentOf targetId opened.2.filename = true := by
    cases active with
    | some w => exact ⟨h, hactive w rfl⟩
    | none => exact ⟨h.writerFor _, isSegmentOf_writerFor dir targetId clock.opened⟩
  have hlogged := hdir.append hfile hint
  unfold HintStore.appendOrRotate
  rw [← hopened]
  dsimp only
  split_ifs with hfull
  · have hsame : logged log hint (opened.2.append ext opened.1 hint) = log := by
      simp [logged, hfull]
    rw [hsame] at hlogged
    have hrotated := isSegmentOf_writerFor (opened.2.append ext opened.1 hint).1 targetId
      clock.rotated
    refine ⟨(hlogged.writerFor clock.rotated).append hrotated hint, ?_⟩
    rw [filename_append]
    exact hrotated
  · refine ⟨hlogged, ?_⟩
    rw [filename_append]
    exact hfile

end

end Logged

/-- What holds while hints are appended. -/
structure RunInv (ext : HintExternal E) (targetId : String) (r : SegmentRun E) : Prop where
  logged : Logged ext targetId r.dir r.log
  active : ∀ w, r.active = some w → isSegmentOf targetId w.filename = true

theorem runInv_start (ext : HintExternal E) (hdir : ∀ filename,
    isSegmentOf targetId filename = true → dir.getD filename [] = []) : RunInv ext targetId (.start dir) :=
  ⟨⟨hdir, fun _ hne => absurd rfl hne, fun _ _ hmem => absurd hmem List.not_mem_nil⟩,
    fun _ hw => nomatch hw⟩

theorem RunInv.append {r : SegmentRun E} (h : RunInv ext targetId r)
    (appended : Hint E × HintClock) : RunInv ext targetId (r.append ext targetId appended) := by
  obtain ⟨hlogged, hfile⟩ := h.logged.appendOrRotate h.active appended.1 appended.2
  exact ⟨hlogged, fun w hw => by cases hw; exact hfile⟩

theorem RunInv.appendAll (appended : List (Hint E × HintClock)) :
    ∀ {r : SegmentRun E}, RunInv ext targetId r →
      RunInv ext targetId (r.appendAll ext targetId appended) := by
  induction appended with
  | nil => exact fun h => h
  | cons a appended ih => exact fun h => ih (h.append a)

variable {r : SegmentRun E} {kept : Nat}

section

variable (h : RunInv ext targetId r)

include h

theorem RunInv.proper_fragmentOf (filename : String) :
    (r.fragmentOf ext kept filename).Proper ext := by
  unfold fragmentOf
  split_ifs
  · exact proper_fragment (h.logged.fits filename) kept
  · exact ⟨h.logged.fits filename, by simp⟩

theorem RunInv.getD_crash (hseg : isSegmentOf targetId filename = true) (kept : Nat) :
    (r.crash kept).getD filename [] = (r.fragmentOf ext kept filename).bytes ext := by
  have hcontent := h.logged.content filename hseg
  unfold crash fragmentOf
  cases hactive : r.active with
  | none => simpa [bytes] using hcontent
  | some w =>
    by_cases heq : w.filename = filename
    · subst heq
      simp [bytes_fragment, hcontent]
    · simpa [heq, Std.ExtTreeMap.getD_insert, bytes] using hcontent

section

variable (hmem : hint ∈ (r.fragmentOf ext kept filename).complete)

include hmem

theorem RunInv.segment_of_mem_complete : isSegmentOf targetId filename = true := by
  refine h.logged.segment filename fun hnil => ?_
  unfold fragmentOf at hmem
  rw [hnil] at hmem
  split_ifs at hmem
  · simp [fragment] at hmem
  · exact List.not_mem_nil hmem

theorem RunInv.getElem?_crash :
    (r.crash kept)[filename]? = some ((r.fragmentOf ext kept filename).bytes ext) := by
  have hcontent := h.getD_crash (h.segment_of_mem_complete hmem) kept
  have hsome := ((h.proper_fragmentOf filename).complete hint hmem).recordOf_ne_nil
  rw [Std.ExtTreeMap.getD_eq_getD_getElem?] at hcontent
  cases hfile : (r.crash kept)[filename]? with
  | some content => rw [hfile] at hcontent; exact congrArg some hcontent
  | none =>
    rw [hfile, Option.getD_none, eq_comm, bytes, List.append_eq_nil_iff,
      List.flatMap_eq_nil_iff] at hcontent
    exact absurd (hcontent.1 hint hmem) hsome

end

end

variable {store : HintStore E}

theorem mem_drainFromSegments_iff {target : E} {now : Int64} :
    hint ∈ ({ store with segments := some dir }.drainFromSegments ext now target).2 ↔
      (∃ filename content, dir[filename]? = some content ∧
        isSegmentOf (ext.display target) filename = true ∧
        hint ∈ segmentHints ext (filename, content)) ∧
      hint.createdAt ≥ store.config.cutoff now := by
  simp [drainFromSegments, HintDir.segmentsFor, and_assoc]

/-- The hints that a drain after the crash returns. -/
theorem RunInv.mem_drain_iff (hext : ext.Lawful) {target : E} {now : Int64}
    (h : RunInv ext (ext.display target) r) :
    hint ∈ ({ store with segments := some (r.crash kept) }.drainFromSegments ext now target).2 ↔
      (∃ filename, (r.fragmentOf ext kept filename).Readable ext ∧
        hint ∈ (r.fragmentOf ext kept filename).complete.takeWhile (! oversize ext ·)) ∧
      hint.createdAt ≥ store.config.cutoff now := by
  rw [mem_drainFromSegments_iff]
  refine and_congr_left fun _ => ⟨?_, ?_⟩
  · rintro ⟨filename, content, hfile, hseg, hmem⟩
    have hcontent := h.getD_crash hseg kept
    rw [Std.ExtTreeMap.getD_eq_getD_getElem?, hfile, Option.getD_some] at hcontent
    rw [hcontent, mem_segmentHints_iff hext (h.proper_fragmentOf filename)] at hmem
    exact ⟨filename, hmem⟩
  · rintro ⟨filename, hread, hmem⟩
    have hcomplete := (List.takeWhile_sublist _).mem hmem
    refine ⟨filename, _, h.getElem?_crash hcomplete, h.segment_of_mem_complete hcomplete, ?_⟩
    rw [mem_segmentHints_iff hext (h.proper_fragmentOf filename)]
    exact ⟨hread, hmem⟩

/-- After a crash has cut off the last file, a drain returns all hints that are completely written
and not expired just if each of them stands in a file that can be read. -/
theorem drainsWritten_iff (hext : ext.Lawful) (store : HintStore E) (target : E) {dir : HintDir}
    (hdir : ∀ filename, isSegmentOf (ext.display target) filename = true →
      dir.getD filename [] = [])
    (appended : List (Hint E × HintClock)) (kept : Nat) (now : Int64) :
    DrainsWritten ext store target
        ((start dir).appendAll ext (ext.display target) appended) kept now ↔
      WrittenReadable ext store.config
        ((start dir).appendAll ext (ext.display target) appended) kept now := by
  have hinv := (runInv_start ext hdir).appendAll appended
  constructor
  · intro hdrains filename hint hmem hfresh
    exact ((hinv.mem_drain_iff hext).1 (hdrains filename hint hmem hfresh)).1
  · intro hreadable filename hint hmem hfresh
    exact (hinv.mem_drain_iff hext).2 ⟨hreadable filename hint hmem hfresh, hfresh⟩

/-! Two hints for one target. -/

def firstHint : Hint Nat := ⟨7, .simple "ks" "t" [1] [] 5, 100, 1⟩

def secondHint : Hint Nat := ⟨7, .simple "ks" "t" [2] [] 6, 101, 2⟩

def twoHintExternal : HintExternal Nat where
  display := toString
  toVec hint := if hint = firstHint then some [1] else if hint = secondHint then some [2] else none
  fromSlice data :=
    if data = [1] then some firstHint else if data = [2] then some secondHint else none

theorem lawful_twoHintExternal : twoHintExternal.Lawful := by
  intro hint data hdata
  simp only [twoHintExternal] at hdata ⊢
  split_ifs at hdata with h1 h2
  · cases hdata
    rw [if_pos rfl, h1]
  · cases hdata
    rw [if_neg (by decide), if_pos rfl, h2]

def oneHintAppended : SegmentRun Nat :=
  (start ∅).appendAll twoHintExternal (twoHintExternal.display 7) [(firstHint, ⟨100, 100, 100⟩)]

theorem fragmentOf_oneHintAppended (filename : String) :
    oneHintAppended.fragmentOf twoHintExternal 9 filename =
      if filename = "7-100.hints" then ⟨[firstHint], none⟩ else ⟨[], none⟩ := by
  have hactive : oneHintAppended.active.map HintSegmentWriter.filename = some "7-100.hints" := rfl
  have hlog : oneHintAppended.log = Function.update (fun _ => []) "7-100.hints" [firstHint] := rfl
  by_cases heq : filename = "7-100.hints"
  · subst heq
    rfl
  · simp [fragmentOf, hactive, hlog, heq, Ne.symm heq]

theorem drainsWritten_firstHint :
    DrainsWritten twoHintExternal (.withConfig {} none) 7 oneHintAppended 9 200 := by
  have hempty : ∀ filename, isSegmentOf (twoHintExternal.display 7) filename = true →
      (∅ : HintDir).getD filename [] = [] := fun _ _ => Std.ExtTreeMap.getD_empty
  have hiff := drainsWritten_iff lawful_twoHintExternal (.withConfig {} none) 7 hempty
    [(firstHint, ⟨100, 100, 100⟩)] 9 200
  rw [oneHintAppended, hiff, ← oneHintAppended]
  intro filename hint hmem hfresh
  refine ⟨filename, ?_⟩
  rw [fragmentOf_oneHintAppended] at hmem ⊢
  split_ifs at hmem ⊢ with heq
  · have hsmall : oversize twoHintExternal firstHint = false := by decide
    have hend : Fragment.Readable twoHintExternal ⟨[firstHint], none⟩ := .inr (by simp)
    exact ⟨hend, by simpa [hsmall] using hmem⟩
  · exact absurd hmem List.not_mem_nil

/-- Both hints, appended to one file. -/
def twoHintsAppended : SegmentRun Nat :=
  (start ∅).appendAll twoHintExternal (twoHintExternal.display 7)
    [(firstHint, ⟨100, 100, 100⟩), (secondHint, ⟨101, 101, 101⟩)]

/-- When the record of the second hint is torn behind its checksum, the first hint is lost, too. -/
theorem not_drainsWritten_tornSecond :
    ¬ DrainsWritten twoHintExternal (.withConfig {} none) 7 twoHintsAppended 14 200 := by
  intro hdrains
  have hmem := hdrains "7-100.hints" firstHint (by decide) (by decide)
  have hnone : ({ (.withConfig {} none : HintStore Nat) with
      segments := some (twoHintsAppended.crash 14) }.drainFromSegments twoHintExternal 200 7).2 =
      [] := by
    decide
  rw [hnone] at hmem
  exact List.not_mem_nil hmem

end CassandraVerified.Coordinator
