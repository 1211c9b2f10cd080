import CassandraVerified.Types.Format
import CassandraVerified.Types.Proofs.VintProofs

/-!
# What the decoder accepts, and when it is safe

The decoder is compared with the format: the bytes it turns into a value are the accepted ones, and
its runs are safe iff the counts fit.
-/

namespace CassandraVerified.Types

open List
open Checked.Run CqlType CqlValue Wire VectorValue

variable {n w pos count : Nat} {bytes data elem rest : Bytes} {accept fit : Bytes → Bool}
  {decode decodeKey : Bytes → Decoding CqlValue} {values : List UInt32} {dimensions : UInt32}

theorem toInt_toInt32 (hn : n < 2 ^ 32) :
    (UInt32.ofNat n).toInt32.toInt = if n < 2 ^ 31 then (n : Int) else n - 2 ^ 32 := by
  have hnat : (UInt32.ofNat n).toBitVec.toNat = n := by simpa using Nat.mod_eq_of_lt hn
  have hint : (UInt32.ofNat n).toInt32.toInt = (UInt32.ofNat n).toBitVec.toInt := rfl
  rw [hint, BitVec.toInt_eq_toNat_cond, hnat]
  split <;> split <;> omega

theorem asUsize_eq (n : Int32) : (asUsize n : Int) = n.toInt % 2 ^ 64 := by
  have h (m : Int64) : (m.toUInt64.toNat : Int) = m.toInt % 2 ^ 64 := by
    have hlt := m.toBitVec.isLt
    have hnat : m.toUInt64.toNat = m.toBitVec.toNat := rfl
    rw [Int64.toInt, BitVec.toInt_eq_toNat_cond, hnat]
    split <;> omega
  rw [asUsize, h, Int32.toInt_toInt64]

theorem toInt32_neg (hn : n < 2 ^ 32) : (UInt32.ofNat n).toInt32 < 0 ↔ 2 ^ 31 ≤ n := by
  rw [Int32.lt_iff_toInt_lt, toInt_toInt32 hn]
  split <;> simp <;> omega

theorem asUsize_of_lt (hn : n < 2 ^ 31) : asUsize (UInt32.ofNat n).toInt32 = n := by
  have h := asUsize_eq (UInt32.ofNat n).toInt32
  rw [toInt_toInt32 (by omega), if_pos hn] at h
  omega

theorem asUsize_of_le (hle : 2 ^ 31 ≤ n) (hn : n < 2 ^ 32) :
    2 ^ 63 ≤ asUsize (UInt32.ofNat n).toInt32 := by
  have h := asUsize_eq (UInt32.ofNat n).toInt32
  rw [toInt_toInt32 hn, if_neg (by omega)] at h
  omega

theorem readBe_of_le (h : w ≤ data.length) : readBe w data = pure (beNat (data.take w)) := by
  simp [readBe, slice_of_le (Nat.zero_le w) h]

theorem readI32_of_le (h : 4 ≤ data.length) :
    readI32 data = pure (UInt32.ofNat (beNat (data.take 4))).toInt32 := by
  simp [readI32, readBe_of_le h]

theorem beNat_take_lt (data : Bytes) : beNat (data.take 4) < 2 ^ 32 := by
  calc beNat (data.take 4) < 256 ^ (data.take 4).length := beNat_lt _
    _ ≤ 256 ^ 4 := Nat.pow_le_pow_right (by omega) (length_take_le 4 data)
    _ = 2 ^ 32 := by norm_num

theorem atLeast_of_le {minimum : Nat} (h : minimum ≤ data.length) :
    atLeast data minimum = pure () := by
  rw [atLeast, if_neg (by omega)]

theorem atLeast_of_lt {minimum : Nat} (h : data.length < minimum) :
    atLeast data minimum = fail (.tooShort minimum data.length) :=
  if_pos h

theorem wireReadBe_of_le (h : 4 ≤ bytes.length) :
    Wire.readBe 4 bytes = some (beNat (bytes.take 4), bytes.drop 4) := by
  simp [Wire.readBe, Wire.take, h]

section

variable (hdata : data.length < 2 ^ 63)

include hdata

section

variable (hpos : pos ≤ data.length)

include hpos

/-- An element is read iff there is one; the position moves on to the rest behind it. -/
theorem readLengthPrefixed_cases :
    (frame (data.drop pos) = none ∧ ∃ e, readLengthPrefixed data pos = fail e) ∨
      ∃ elem consumed, frame (data.drop pos) = some (elem, data.drop (pos + consumed)) ∧
        readLengthPrefixed data pos = pure (elem, consumed) ∧
        addUsize pos consumed = (pure (pos + consumed) : Decoding Nat) ∧
        pos + consumed ≤ data.length ∧ elem.length ≤ data.length := by
  have hadd : pos + 4 < 2 ^ 64 := by omega
  unfold readLengthPrefixed
  rw [addUsize_of_lt hadd, pure_bind]
  rcases Nat.lt_or_ge data.length (pos + 4) with hlt | hge
  · have hnone : Wire.readBe 4 (data.drop pos) = none :=
      readBe_eq_none.mpr (by simp only [length_drop]; omega)
    exact .inl ⟨by simp [frame, hnone], _, by rw [atLeast_of_lt hlt, fail_bind]⟩
  have hfrom : 4 ≤ (data.drop pos).length := by simp only [length_drop]; omega
  have hlt := beNat_take_lt (data.drop pos)
  simp only [frame, wireReadBe_of_le hfrom, drop_drop, atLeast_of_le hge, pure_bind,
    sliceFrom_of_le hpos, readI32_of_le hfrom, toInt32_neg hlt]
  generalize beNat ((data.drop pos).take 4) = len at hlt
  rcases Nat.lt_or_ge len (2 ^ 31) with hlen | hneg
  · simp only [if_pos hlen, if_neg hlen.not_ge, asUsize_of_lt hlen, pure_bind,
      addUsize_of_lt (show pos + 4 + len < 2 ^ 64 by omega),
      addUsize_of_lt (show 4 + len < 2 ^ 64 by omega)]
    rcases Nat.lt_or_ge data.length (pos + 4 + len) with hshort | hstop
    · rw [atLeast_of_lt hshort]
      exact .inl ⟨take_eq_none.mpr (by simp only [length_drop]; omega), _, fail_bind _ _⟩
    · refine .inr ⟨(data.drop (pos + 4)).take len, 4 + len, ?_, ?_,
        addUsize_of_lt (by omega), by omega, by simp⟩
      · simp only [Wire.take, length_drop, drop_drop, Nat.add_assoc]
        exact if_pos (by omega)
      · simp [atLeast_of_le hstop, slice_of_le (Nat.le_add_right _ _) hstop, take_drop]
  · simp only [if_neg hneg.not_gt, if_pos hneg]
    exact .inr ⟨[], 4, rfl, by simp [slice_of_le], addUsize_of_lt hadd, hge, by simp⟩

theorem outcome_readItems {items : List CqlValue} :
    (readItems decode data count pos).outcome = .ok items ↔
      (frames count (data.drop pos)).length = count ∧
        List.Forall₂ (fun elem item => (decode elem).outcome = .ok item)
          (frames count (data.drop pos)) items := by
  induction count generalizing pos items with
  | zero => simp [readItems, frames, eq_comm]
  | succ count ih =>
    unfold readItems frames
    rcases readLengthPrefixed_cases hdata hpos with
      ⟨hframe, e, hread⟩ | ⟨elem, consumed, hframe, hread, hadd, hle, -⟩
    · simp [hframe, hread]
    · simp only [hframe, hread, pure_bind, hadd, outcome_bind_eq_ok, ih hle, outcome_pure,
        Checked.Outcome.ok.injEq, length_cons, Nat.add_right_cancel_iff,
        forall₂_cons_left_iff]
      grind

theorem outcome_readEntries {entries : List (CqlValue × CqlValue)} :
    (readEntries decode decodeKey data count pos).outcome = .ok entries ↔
      (framePairs count (data.drop pos)).length = count ∧
        List.Forall₂ (fun e entry => (decodeKey e.1).outcome = .ok entry.1 ∧
          (decode e.2).outcome = .ok entry.2) (framePairs count (data.drop pos)) entries := by
  induction count generalizing pos entries with
  | zero => simp [readEntries, framePairs, eq_comm]
  | succ count ih =>
    unfold readEntries framePairs
    rcases readLengthPrefixed_cases hdata hpos with
      ⟨hkey, e, hreadKey⟩ | ⟨key, kConsumed, hkey, hreadKey, haddKey, hposKey, -⟩
    · simp [hkey, hreadKey]
    simp only [hkey, hreadKey, pure_bind, haddKey]
    rcases readLengthPrefixed_cases hdata hposKey with
      ⟨hframe, e, hread⟩ | ⟨value, vConsumed, hframe, hread, hadd, hle, -⟩
    · simp [hframe, hread]
    · simp only [hframe, hread, pure_bind, hadd, outcome_bind_eq_ok, ih hle, outcome_pure,
        Checked.Outcome.ok.injEq, length_cons, Nat.add_right_cancel_iff,
        forall₂_cons_left_iff, Prod.exists]
      grind

end

end

variable {limit : Nat} {β : Type}

theorem readCount_of_none (h : Wire.readBe 4 data = none) :
    readCount data = fail (.tooShort 4 data.length) := by
  simp [readCount, atLeast_of_lt (readBe_eq_none.mp h)]

theorem readCount_of_some (h : Wire.readBe 4 data = some (count, rest)) : readCount data = (do
      allocate (asUsize (UInt32.ofNat count).toInt32)
      return asUsize (UInt32.ofNat count).toInt32) := by
  have hlen := length_of_readBe h
  have hle : 4 ≤ data.length := by omega
  obtain ⟨rfl, -⟩ : beNat (data.take 4) = count ∧ data.drop 4 = rest := by
    simpa [wireReadBe_of_le hle] using h
  have hfrom : 4 ≤ (data.take 4).length := by simp [hle]
  simp only [readCount, atLeast_of_le hle, pure_bind, slice_of_le (Nat.zero_le 4) hle,
    drop_zero, readI32_of_le hfrom, take_take, Nat.min_self]

variable {f : Nat → Decoding β}

/-- A collection is safe to decode iff its count is not negative and within the limit, and its
elements are safe. -/
theorem safe_readCount_bind : (readCount data >>= f).Safe limit ↔
      match Wire.readBe 4 data with
      | some (count, _) => count < 2 ^ 31 ∧ count ≤ limit ∧ (f count).Safe limit
      | none => True := by
  rcases h : Wire.readBe 4 data with _ | ⟨count, rest⟩
  · simp [readCount_of_none h]
  · have hlt : count < 2 ^ 32 := lt_of_readBe h
    simp only [readCount_of_some h, safe_bind, safe_allocate]
    rcases Nat.lt_or_ge count (2 ^ 31) with hsmall | hlarge
    · have hroom := outcome_allocate_of_lt (ε := CodecError) (show count < 2 ^ 63 by omega)
      simp only [asUsize_of_lt hsmall, outcome_bind_of_ok hroom, outcome_pure,
        Checked.Outcome.ok.injEq, forall_eq', safe_pure, implies_true, and_true]
      constructor
      · rintro ⟨⟨-, hle⟩, hf⟩
        exact ⟨hsmall, hle, hf⟩
      · rintro ⟨-, hle, hf⟩
        exact ⟨⟨by omega, hle⟩, hf⟩
    · have := asUsize_of_le hlarge hlt
      constructor
      · rintro ⟨⟨⟨hroom, -⟩, -⟩, -⟩
        omega
      · rintro ⟨hsmall, -, -⟩
        omega

theorem outcome_readCount_bind {b : β} :
    (readCount data >>= f).outcome = .ok b ↔
      ∃ count rest, Wire.readBe 4 data = some (count, rest) ∧ count < 2 ^ 31 ∧
        (f count).outcome = .ok b := by
  rcases h : Wire.readBe 4 data with _ | ⟨count, rest⟩
  · simp [readCount_of_none h]
  · have hlt : count < 2 ^ 32 := lt_of_readBe h
    rw [readCount_of_some h]
    rcases Nat.lt_or_ge count (2 ^ 31) with hsmall | hlarge
    · have hroom := outcome_allocate_of_lt (ε := CodecError) (show count < 2 ^ 63 by omega)
      simp only [asUsize_of_lt hsmall, outcome_bind_eq_ok, hroom, outcome_pure,
        Checked.Outcome.ok.injEq, Option.some.injEq, Prod.mk.injEq]
      grind
    · have hfull := asUsize_of_le hlarge hlt
      have hroom : (allocate (asUsize (UInt32.ofNat count).toInt32) :
          Decoding Unit).outcome = .panic := if_neg (by omega)
      simp only [outcome_bind_eq_ok, hroom]
      grind

/-! ## Scalars

The readers of scalars are always safe; they are told apart by the data they accept. -/

/-- The run is safe, and ends with a value iff the data is accepted. -/
structure Total (limit : Nat) (x : Decoding β) (accepted : Prop) : Prop where
  safe : x.Safe limit
  ok : (∃ b, x.outcome = .ok b) ↔ accepted

variable {α : Type} {accepted : Prop}

theorem Total.map {x : Decoding α} (h : Total limit x accepted) (f : α → β) :
    Total limit (do return f (← x)) accepted where
  safe := by simp [h.safe]
  ok := by simp [← h.ok]

theorem total_pure (b : β) : Total limit (pure b : Decoding β) True := ⟨by simp, by simp⟩

theorem total_fail (e : CodecError) : Total limit (fail e : Decoding β) False := ⟨by simp, by simp⟩

theorem total_ck {x : Decoding β} (h : data.length = n → Total limit x True) :
    Total limit (do ck data n; x) (data.length = n) := by
  by_cases hlen : data.length = n
  · simpa [ck, hlen] using h hlen
  · simpa [ck, hlen] using total_fail _

theorem total_atLeast {x : Decoding β} (h : n ≤ data.length → Total limit x True) :
    Total limit (do atLeast data n; x) (n ≤ data.length) := by
  rcases Nat.lt_or_ge data.length n with hlt | hge
  · simpa [atLeast_of_lt hlt, not_le.mpr hlt] using total_fail _
  · simpa [atLeast_of_le hge, hge] using h hge

theorem total_readBe (h : w ≤ data.length) : Total limit (readBe w data) True := by
  rw [readBe_of_le h]
  exact total_pure _

theorem total_readLong : Total limit (readLong data) (data.length = 8) :=
  total_ck fun h => (total_readBe h.ge).map _

theorem total_readExact : Total limit (readExact w data) (data.length = w) :=
  total_ck fun h => total_readBe h.ge

theorem total_readFixed : Total limit (readFixed n data) (data.length = n) :=
  total_ck fun h => by simpa [copyFromSlice, h] using total_pure _

theorem total_index {i : Nat} (h : i < data.length) : Total limit (index data i) True := by
  simpa [index, h] using total_pure _

theorem Total.allocate {x : Decoding β} (h : Total limit x accepted) (hroom : n < 2 ^ 63)
    (hlimit : n ≤ limit) : Total limit (do Checked.Run.allocate n; x) accepted where
  safe := safe_bind.mpr ⟨safe_allocate.mpr ⟨hroom, hlimit⟩, fun _ _ => h.safe⟩
  ok := by simp only [outcome_bind_of_ok (outcome_allocate_of_lt hroom), h.ok]

theorem total_toVec (hroom : data.length < 2 ^ 63) (hlimit : data.length ≤ limit) :
    Total limit (toVec data) True :=
  (total_pure _).allocate hroom hlimit

theorem fromUTF8?_utf8Bytes (text : String) :
    String.fromUTF8? ⟨(utf8Bytes text).toArray⟩ = some text := by
  simp only [String.fromUTF8?, utf8Bytes, Array.toArray_toList]
  exact dif_pos text.isValidUTF8

theorem total_readText (hroom : data.length < 2 ^ 63) (hlimit : data.length ≤ limit) :
    Total limit (readText data) (isUtf8 data) := by
  unfold readText toStr isUtf8
  cases String.fromUTF8? ⟨data.toArray⟩ with
  | none => simpa using total_fail _
  | some text => simpa using (total_pure text).allocate hroom hlimit

theorem total_readInet : Total limit (readInet data) (data.length = 4 ∨ data.length = 16) := by
  unfold readInet copyFromSlice
  split
  · next h => simpa [h] using total_pure _
  · split
    · next h => simpa [h] using total_pure _
    · next h4 h16 => simpa [h4, h16] using total_fail _

theorem decodeVint_le {value : Int64} {size : Nat} (h : decodeVint bytes = some (value, size)) :
    size ≤ bytes.length := by
  obtain ⟨r, hraw, heq⟩ := Option.map_eq_some_iff.mp h
  exact (Prod.mk.inj heq).2 ▸ (decodeUvint_append hraw []).2

theorem readVint_of_some {r : Int64 × Nat} (h : decodeVint bytes = some r) :
    readVint bytes = pure r := by
  simp [readVint, h]

theorem readVint_of_none (h : decodeVint bytes = none) :
    readVint bytes = fail (.tooShort 1 bytes.length) := by
  simp [readVint, h]

theorem readVint32_cases (typeName : String) (hpos : pos ≤ data.length) :
    (frameVint32 (data.drop pos) = none ∧ ∃ e, readVint32 typeName data pos = fail e) ∨
      ∃ value size, frameVint32 (data.drop pos) = some (data.drop (pos + size)) ∧
        readVint32 typeName data pos = pure (value, size) ∧ pos + size ≤ data.length := by
  unfold frameVint32 readVint32
  rcases hvint : decodeVint (data.drop pos) with _ | ⟨value, size⟩
  · refine .inl ⟨rfl, .tooShort 1 (data.drop pos).length, ?_⟩
    rw [sliceFrom_of_le hpos, pure_bind, readVint_of_none hvint, fail_bind]
  have hsize := decodeVint_le hvint
  simp only [length_drop] at hsize
  simp only [sliceFrom_of_le hpos, readVint_of_some hvint, pure_bind, i32TryFrom, drop_drop]
  split
  · exact .inr ⟨value.toInt32, size, rfl, rfl, by omega⟩
  · exact .inl ⟨rfl, _, fail_bind _ _⟩

theorem total_readDuration (hroom : data.length < 2 ^ 63) :
    Total limit (readDuration data) (isDuration data) := by
  unfold readDuration isDuration
  rcases readVint32_cases "duration.months" (Nat.zero_le data.length) with
    ⟨hframe, e, hread⟩ | ⟨months, n1, hframe, hread, hle1⟩
  · rw [drop_zero] at hframe
    simpa [hframe, hread] using total_fail _
  rw [Nat.zero_add] at hframe hle1
  rw [drop_zero] at hframe
  simp only [hframe, hread, pure_bind, Option.bind_some]
  rcases readVint32_cases "duration.days" hle1 with
    ⟨hframe, e, hread⟩ | ⟨days, n2, hframe, hread, hle2⟩
  · simpa [hframe, hread] using total_fail _
  have hadd2 : n1 + n2 < 2 ^ 64 := by omega
  simp only [hframe, hread, pure_bind, addUsize_of_lt hadd2, sliceFrom_of_le hle2]
  rcases hnanos : decodeVint (data.drop (n1 + n2)) with _ | ⟨nanoseconds, n3⟩
  · simpa [readVint_of_none hnanos] using total_fail _
  have hle3 := decodeVint_le hnanos
  simp only [length_drop] at hle3
  have hadd3 : n1 + n2 + n3 < 2 ^ 64 := by omega
  simp only [readVint_of_some hnanos, pure_bind, addUsize_of_lt hadd3, Option.any_some, length_drop]
  by_cases hend : n1 + n2 + n3 = data.length
  · have hrest : n3 = data.length - (n1 + n2) := by omega
    simpa [hend, ← hrest] using total_pure _
  · have hrest : n3 ≠ data.length - (n1 + n2) := by omega
    simpa [hend, hrest] using total_fail _

/-! ## Vectors -/

theorem validateFrom_eq_none {index : Nat} :
    validateFrom index values = none ↔ values.all isFinite := by
  induction values generalizing index with
  | nil => simp [validateFrom]
  | cons v values ih =>
    simp only [validateFrom, isNan, isInfinite, all_cons,
      isFinite, Bool.and_eq_true, decide_eq_true_eq]
    split
    · grind
    · split <;> grind

theorem readFloats_isSome (h : bytes.length = n * 4) :
    ∃ values, readFloats n bytes = some values := by
  induction n generalizing bytes with
  | zero => exact ⟨[], rfl⟩
  | succ n ih =>
    have hle : 4 ≤ bytes.length := by omega
    have hdrop : (bytes.drop 4).length = n * 4 := by simp only [length_drop]; omega
    obtain ⟨values, hvalues⟩ := ih hdrop
    exact ⟨UInt32.ofNat (beNat (bytes.take 4)) :: values, by
      simp [readFloats, wireReadBe_of_le hle, hvalues]⟩

theorem safe_failVector_mismatch {gotBytes : Nat} :
    (failVector (.dimensionMismatch dimensions gotBytes) : Decoding β).Safe limit ↔
      dimensions.toNat < 2 ^ 30 := by
  simp only [failVector, VectorError.toText, bind_assoc, pure_bind, safe_bind, safe_mulU32,
    safe_fail, implies_true, and_true]
  omega

theorem outcome_failVector {e : VectorError} {b : β} :
    ¬ (failVector e : Decoding β).outcome = .ok b := by
  simp [failVector, outcome_bind_eq_ok]

theorem safe_failVector_component {index : Nat} {reason : String} :
    (failVector (.invalidComponent index reason) : Decoding β).Safe limit := by
  simp [failVector, VectorError.toText]

theorem validateFrom_some {index : Nat} {e : VectorError} (h : validateFrom index values = some e) :
    ∃ index reason, e = .invalidComponent index reason := by
  induction values generalizing index with
  | nil => simp [validateFrom] at h
  | cons v values ih =>
    unfold validateFrom at h
    split at h
    · exact ⟨_, _, (Option.some.inj h).symm⟩
    · split at h
      · exact ⟨_, _, (Option.some.inj h).symm⟩
      · exact ih h

theorem total_checkVector : Total limit (checkVector ⟨values⟩) (values.all isFinite) := by
  unfold checkVector
  rcases hvalid : validate ⟨values⟩ with _ | e
  · simpa [validateFrom_eq_none.mp hvalid] using total_pure _
  · obtain ⟨index, reason, rfl⟩ := validateFrom_some hvalid
    have hbad : ¬ values.all isFinite = true := by
      intro hall
      rw [validate, validateFrom_eq_none.mpr hall] at hvalid
      simp at hvalid
    exact ⟨safe_failVector_component, by simp [outcome_failVector, hbad]⟩

theorem total_readVector (hlen : data.length = dimensions.toNat * 4)
    (hlimit : data.length ≤ limit) :
    Total limit (readVector data dimensions)
      ((readFloats dimensions.toNat data).any (·.all isFinite)) := by
  obtain ⟨values, hvalues⟩ := readFloats_isSome hlen
  have hdims : dimensions.toNat < 2 ^ 32 := dimensions.toNat_lt
  have h : Total limit (do allocate dimensions.toNat; checkVector ⟨values⟩) _ :=
    total_checkVector.allocate (by omega) (by omega)
  simp only [readVector, deserialize, hlen, hvalues]
  simpa using h

theorem readVector_of_ne (hlen : data.length ≠ dimensions.toNat * 4) :
    readVector data dimensions = failVector (.dimensionMismatch dimensions data.length) := by
  simp [readVector, deserialize, hlen]

/-! ## Fields -/

/-- The position moves on to the rest behind a field, or beyond the end. -/
theorem readOptionalField_eq (hdata : data.length < 2 ^ 63) (hpos : pos ≤ data.length + 2 ^ 31) :
    ∃ consumed, readOptionalField data pos = pure ((field (data.drop pos)).1, consumed) ∧
      pos + consumed ≤ data.length + 2 ^ 31 ∧
      data.drop (pos + consumed) = (field (data.drop pos)).2 := by
  have hadd : pos + 4 < 2 ^ 64 := by omega
  simp only [readOptionalField, addUsize_of_lt hadd, pure_bind]
  split
  · next hlt =>
    have hnone : Wire.readBe 4 (data.drop pos) = none :=
      readBe_eq_none.mpr (by simp only [length_drop]; omega)
    exact ⟨0, by simp [field, hnone], by omega, by simp [field, hnone]⟩
  · next hge =>
    have hfrom : 4 ≤ (data.drop pos).length := by simp only [length_drop]; omega
    have hlt := beNat_take_lt (data.drop pos)
    simp only [sliceFrom_of_le (show pos ≤ data.length by omega), pure_bind, readI32_of_le hfrom,
      toInt32_neg hlt, field, wireReadBe_of_le hfrom]
    generalize beNat ((data.drop pos).take 4) = len at hlt
    split
    · next hneg =>
      rw [if_neg (by omega)]
      exact ⟨4, rfl, by omega, by simp⟩
    · next hlen =>
      have hsmall : len < 2 ^ 31 := by omega
      simp only [asUsize_of_lt hsmall, if_pos hsmall, pure_bind,
        addUsize_of_lt (show pos + 4 + len < 2 ^ 64 by omega),
        addUsize_of_lt (show 4 + len < 2 ^ 64 by omega),
        slice_of_le (show pos + 4 ≤ min (pos + 4 + len) data.length by omega) (Nat.min_le_right _ _)]
      refine ⟨4 + len, ?_, by omega, ?_⟩
      · rw [drop_drop, ← take_eq_take_min, drop_take]
        simp
      · simp [Nat.add_assoc]

/-- A field that is there is decoded. -/
def decodeOption (decode : Bytes → Decoding CqlValue) : Option Bytes → Decoding (Option CqlValue)
  | some bytes => some <$> decode bytes
  | none => pure none

theorem readField_eq (decode : Bytes → Decoding CqlValue) (hdata : data.length < 2 ^ 63)
    (hpos : pos ≤ data.length + 2 ^ 31) :
    ∃ next ≤ data.length + 2 ^ 31, data.drop next = (field (data.drop pos)).2 ∧
      readField decode data pos = (·, next) <$> decodeOption decode (field (data.drop pos)).1 := by
  obtain ⟨consumed, hread, hle, hdrop⟩ := readOptionalField_eq hdata hpos
  refine ⟨pos + consumed, hle, hdrop, ?_⟩
  simp only [readField, hread, pure_bind, addUsize_of_lt (show pos + consumed < 2 ^ 64 by omega)]
  cases (field (data.drop pos)).1 <;> simp [decodeOption]

theorem length_field (h : (field bytes).1 = some elem) : elem.length ≤ bytes.length := by
  unfold field at h
  split at h
  · next len rest hread =>
    have hlen := length_of_readBe hread
    split at h
    · obtain rfl : rest.take len = elem := by simpa using h
      simp only [length_take]
      omega
    · simp at h
  · simp at h

variable {bytes : Option Bytes}

theorem outcome_decodeOption
    (h : ∀ elem, bytes = some elem → ((∃ v, (decode elem).outcome = .ok v) ↔ accept elem)) :
    (∃ v, (decodeOption decode bytes).outcome = .ok v) ↔ bytes.all accept := by
  cases bytes with
  | none => simp [decodeOption]
  | some elem => simp [decodeOption, ← h elem rfl]

theorem safe_decodeOption
    (h : ∀ elem, bytes = some elem → ((decode elem).Safe limit ↔ fit elem)) :
    (decodeOption decode bytes).Safe limit ↔ bytes.all fit := by
  cases bytes with
  | none => simp [decodeOption]
  | some elem => simp [decodeOption, ← h elem rfl]

/-! ## The decoder -/

/-- What a run is compared with: the data it accepts, and when it is safe. -/
structure Decodes (limit : Nat) (x : Decoding β) (accepted fits : Prop) : Prop where
  ok : (∃ b, x.outcome = .ok b) ↔ accepted
  safe : x.Safe limit ↔ fits

variable {fits : Prop}

theorem Total.decodes {x : Decoding β} (h : Total limit x accepted) :
    Decodes limit x accepted True :=
  ⟨h.ok, by simp [h.safe]⟩

theorem Decodes.map {x : Decoding α} (h : Decodes limit x accepted fits) (f : α → β) :
    Decodes limit (f <$> x) accepted fits :=
  ⟨by simp [← h.ok], by simp [h.safe]⟩

/-- What follows a run only counts if the run ends with a value. -/
theorem Decodes.bind {x : Decoding α} {f : α → Decoding β} {acceptedRest fitsRest : Prop}
    (h : Decodes limit x accepted fits) (hrest : ∀ a, Decodes limit (f a) acceptedRest fitsRest) :
    Decodes limit (x >>= f) (accepted ∧ acceptedRest) (fits ∧ (accepted → fitsRest)) where
  ok := by
    simp only [outcome_bind_eq_ok, ← h.ok]
    constructor
    · rintro ⟨b, a, ha, hb⟩
      exact ⟨⟨a, ha⟩, (hrest a).ok.mp ⟨b, hb⟩⟩
    · rintro ⟨⟨a, ha⟩, haccepted⟩
      obtain ⟨b, hb⟩ := (hrest a).ok.mpr haccepted
      exact ⟨b, a, ha, hb⟩
  safe := by
    simp [safe_bind, h.safe, (hrest _).safe, ← h.ok]

section Collections

theorem drop_four_of_readBe (h : Wire.readBe 4 data = some (count, rest)) :
    4 ≤ data.length ∧ data.drop 4 = rest := by
  have hle : 4 ≤ data.length := by
    have := length_of_readBe h
    omega
  have hrest : beNat (data.take 4) = count ∧ data.drop 4 = rest := by
    simpa [wireReadBe_of_le hle] using h
  exact ⟨hle, hrest.2⟩

theorem Decodes.of_readCount (h : Decodes limit (f count) accepted fits)
    (hread : Wire.readBe 4 data = some (count, rest)) :
    Decodes limit (readCount data >>= f) (count < 2 ^ 31 ∧ accepted)
      (count < 2 ^ 31 ∧ count ≤ limit ∧ fits) where
  ok := by
    simp only [outcome_readCount_bind, hread, Option.some.injEq, Prod.mk.injEq, ← h.ok]
    grind
  safe := by simp [safe_readCount_bind, hread, h.safe]

variable {acceptKey fitKey : Bytes → Bool} (hdata : data.length < 2 ^ 63)
    (h : ∀ elem : Bytes, elem.length ≤ data.length →
      Decodes limit (decode elem) (accept elem) (fit elem))

include hdata h

theorem decodes_readItems (hpos : pos ≤ data.length) :
    Decodes limit (readItems decode data count pos)
      ((frames count (data.drop pos)).length = count ∧ (frames count (data.drop pos)).all accept)
      (fitsWhile accept fit (frames count (data.drop pos))) := by
  induction count generalizing pos with
  | zero => simpa [readItems, frames, fitsWhile] using (total_pure _).decodes
  | succ count ih =>
    unfold readItems frames
    rcases readLengthPrefixed_cases hdata hpos with
      ⟨hframe, e, hread⟩ | ⟨elem, consumed, hframe, hread, hadd, hle, hlen⟩
    · simpa [hframe, hread, fitsWhile] using (total_fail e).decodes
    · have hbind := (h elem hlen).bind fun item => (ih hle).map (item :: ·)
      simpa [hframe, hread, hadd, fitsWhile, and_left_comm, imp_iff_not_or] using hbind

theorem decodes_readEntries (hkey : ∀ elem : Bytes, elem.length ≤ data.length →
      Decodes limit (decodeKey elem) (acceptKey elem) (fitKey elem)) (hpos : pos ≤ data.length) :
    Decodes limit (readEntries decode decodeKey data count pos)
      ((framePairs count (data.drop pos)).length = count ∧
        (framePairs count (data.drop pos)).all fun e => acceptKey e.1 && accept e.2)
      (fitsWhile (fun e => acceptKey e.1 && accept e.2) (entryFits acceptKey fitKey fit)
        (framePairs count (data.drop pos))) := by
  induction count generalizing pos with
  | zero => simpa [readEntries, framePairs, fitsWhile] using (total_pure _).decodes
  | succ count ih =>
    unfold readEntries framePairs
    rcases readLengthPrefixed_cases hdata hpos with
      ⟨hframeKey, e, hreadKey⟩ | ⟨key, kConsumed, hframeKey, hreadKey, haddKey, hposKey, hlenKey⟩
    · simpa [hframeKey, hreadKey, fitsWhile] using (total_fail e).decodes
    simp only [hframeKey, hreadKey, pure_bind, haddKey]
    rcases readLengthPrefixed_cases hdata hposKey with
      ⟨hframe, e, hread⟩ | ⟨value, vConsumed, hframe, hread, hadd, hle, hlen⟩
    · simpa [hframe, hread, fitsWhile] using (total_fail e).decodes
    · have hbind := (hkey key hlenKey).bind fun k => (h value hlen).bind fun v =>
        (ih hle).map ((k, v) :: ·)
      simp only [← bind_pure_comp] at hbind
      simp only [hframe, hread, pure_bind, hadd, fitsWhile, entryFits]
      convert hbind using 1 <;> grind

theorem decodes_items : Decodes limit (do
        let count ← readCount data
        readItems decode data count 4)
      (acceptsItems accept data) (itemsFit limit accept fit data) := by
  unfold acceptsItems itemsFit
  rcases hread : Wire.readBe 4 data with _ | ⟨count, rest⟩
  · simpa [readCount_of_none hread] using (total_fail _).decodes
  · obtain ⟨hle, rfl⟩ := drop_four_of_readBe hread
    simpa using Decodes.of_readCount (f := (readItems decode data · 4))
      (decodes_readItems hdata h hle) hread

theorem decodes_entries (hkey : ∀ elem : Bytes, elem.length ≤ data.length →
      Decodes limit (decodeKey elem) (acceptKey elem) (fitKey elem)) :
    Decodes limit (do
        let count ← readCount data
        readEntries decode decodeKey data count 4)
      (acceptsEntries acceptKey accept data)
      (entriesFit limit acceptKey accept fitKey fit data) := by
  unfold acceptsEntries entriesFit
  rcases hread : Wire.readBe 4 data with _ | ⟨count, rest⟩
  · simpa [readCount_of_none hread] using (total_fail _).decodes
  · obtain ⟨hle, rfl⟩ := drop_four_of_readBe hread
    simpa using Decodes.of_readCount (f := (readEntries decode decodeKey data · 4))
      (decodes_readEntries hdata h hkey hle) hread

end Collections

/-- A field and what is decoded behind it. -/
theorem decodes_field {acceptRest fitRest : Bool}
    {rest : Option CqlValue × Nat → Decoding β} (hdata : data.length < 2 ^ 63)
    (hpos : pos ≤ data.length + 2 ^ 31) (h : ∀ elem : Bytes, elem.length ≤ data.length →
      Decodes limit (decode elem) (accept elem) (fit elem))
    (hrest : ∀ value next, next ≤ data.length + 2 ^ 31 →
      data.drop next = (field (data.drop pos)).2 →
      Decodes limit (rest (value, next)) acceptRest fitRest) :
    Decodes limit (readField decode data pos >>= rest)
      ((field (data.drop pos)).1.all accept && acceptRest)
      ((field (data.drop pos)).1.all fit &&
        (!(field (data.drop pos)).1.all accept || fitRest)) := by
  obtain ⟨next, hnext, hdrop, hread⟩ := readField_eq decode hdata hpos
  have helem (elem : Bytes) (hsome : (field (data.drop pos)).1 = some elem) :
      elem.length ≤ data.length :=
    (length_field hsome).trans (by simp)
  have hvalue : Decodes limit (decodeOption decode (field (data.drop pos)).1) _ _ :=
    ⟨outcome_decodeOption fun elem hsome => (h elem (helem elem hsome)).ok,
      safe_decodeOption fun elem hsome => (h elem (helem elem hsome)).safe⟩
  have hbind := hvalue.bind fun value => hrest value next hnext hdrop
  simpa [hread, imp_iff_not_or] using hbind

theorem Decodes.allocate {x : Decoding β} (h : Decodes limit x accepted fits) (hroom : n < 2 ^ 63)
    (hlimit : n ≤ limit) :
    Decodes limit (do Checked.Run.allocate n; x) accepted fits where
  ok := by simp only [outcome_bind_of_ok (outcome_allocate_of_lt hroom), h.ok]
  safe := by
    simp only [safe_bind, safe_allocate, outcome_allocate_of_lt hroom, h.safe]
    exact ⟨fun hx => hx.2 () trivial, fun hx => ⟨⟨hroom, hlimit⟩, fun _ _ => hx⟩⟩

theorem length_le_sizes (types : List CqlType) : types.length ≤ sizes types := by
  induction types with
  | nil => simp [sizes]
  | cons type types ih =>
    simp only [length_cons, sizes]
    omega

theorem length_le_sum_names (names : List String) :
    names.length ≤ (names.map fun name => name.utf8ByteSize + 1).sum := by
  induction names with
  | nil => simp
  | cons name names ih =>
    simp only [length_cons, map_cons, sum_cons]
    omega

theorem total_decimal (hlimit : data.length ≤ limit) (hroom : data.length < 2 ^ 63)
    (hlen : 4 ≤ data.length) :
    Total limit (do
      let scale ← readI32 data
      let unscaled ← toVec (← sliceFrom data 4)
      return decimal unscaled scale) True := by
  rw [readI32_of_le hlen, pure_bind, sliceFrom_of_le hlen, pure_bind]
  have hdrop : (data.drop 4).length ≤ data.length := by simp
  exact (total_toVec (hdrop.trans_lt hroom) (hdrop.trans hlimit)).map _

theorem decodes_vector (inner : CqlType) (dimensions : UInt32) (hlimit : data.length ≤ limit) :
    Decodes limit (deserializeValue (.vector inner dimensions) data)
      (accepts (.vector inner dimensions) data) (countsFit limit (.vector inner dimensions) data) := by
  by_cases hfloat : inner = .float
  · subst hfloat
    simp only [deserializeValue, accepts, countsFit, bind_pure_comp]
    refine Decodes.map ?_ _
    by_cases hlen : data.length = dimensions.toNat * 4
    · simpa [hlen] using (total_readVector hlen hlimit).decodes
    · rw [readVector_of_ne hlen]
      exact ⟨by simp [outcome_failVector, hlen], by simp [safe_failVector_mismatch, hlen]⟩
  · have h : deserializeValue (.vector inner dimensions) data =
        fail (.unsupportedType (CqlType.vector inner dimensions).cqlName) := by
      cases inner <;> first | rfl | exact absurd rfl hfloat
    have haccepts : accepts (.vector inner dimensions) data = false := by
      cases inner <;> first | rfl | exact absurd rfl hfloat
    have hfits : countsFit limit (.vector inner dimensions) data = true := by
      cases inner <;> first | rfl | exact absurd rfl hfloat
    rw [h, haccepts, hfits]
    simpa using (total_fail (β := CqlValue) _).decodes

attribute [local simp] deserializeValue countsFit accepts

mutual

/-- The decoder turns exactly the accepted bytes into values, and is safe iff the counts fit. -/
theorem decodes_deserializeValue (limit : Nat) : ∀ (type : CqlType) (data : Bytes),
    type.size + data.length ≤ limit → type.size + data.length < 2 ^ 63 →
      Decodes limit (deserializeValue type data) (type.accepts data) (type.countsFit limit data)
  | .ascii, data, hlimit, hroom => by
    simpa using ((total_readText (by omega) (by omega)).map ascii).decodes
  | .varchar, data, hlimit, hroom => by
    simpa using ((total_readText (by omega) (by omega)).map varchar).decodes
  | .bigint, data, _, _ => by
    simpa using (total_readLong.map bigint).decodes
  | .counter, data, _, _ => by
    simpa using (total_readLong.map counter).decodes
  | .timestamp, data, _, _ => by
    simpa using (total_readLong.map timestamp).decodes
  | .time, data, _, _ => by
    simpa using (total_readLong.map time).decodes
  | .blob, data, hlimit, hroom | .composite _, data, hlimit, hroom
  | .dynamicComposite _, data, hlimit, hroom => by
    simpa using ((total_toVec (by omega) (by omega)).map blob).decodes
  | .varint, data, hlimit, hroom => by
    simpa using ((total_toVec (by omega) (by omega)).map varint).decodes
  | .boolean, data, _, _ => by
    simpa using (total_ck fun h : data.length = 1 =>
      (total_index (by omega)).map fun b => boolean (b != 0)).decodes
  | .tinyint, data, _, _ => by
    simpa using (total_ck fun h : data.length = 1 =>
      (total_index (by omega)).map fun b => tinyint b.toInt8).decodes
  | .double, data, _, _ => by
    simpa using (total_readExact.map fun n => double (UInt64.ofNat n)).decodes
  | .float, data, _, _ => by
    simpa using (total_readExact.map fun n => float (UInt32.ofNat n)).decodes
  | .date, data, _, _ => by
    simpa using (total_readExact.map fun n => date (UInt32.ofNat n)).decodes
  | .smallint, data, _, _ => by
    simpa using (total_readExact.map fun n => smallint (UInt16.ofNat n).toInt16).decodes
  | .int, data, _, _ => by
    simpa [readI32] using (total_ck fun h : data.length = 4 =>
        (total_readBe h.ge).map fun n => int (UInt32.ofNat n).toInt32).decodes
  | .uuid, data, _, _ => by
    simpa using (total_readFixed.map uuid).decodes
  | .timeuuid, data, _, _ => by
    simpa using (total_readFixed.map timeuuid).decodes
  | .inet, data, _, _ => by
    simpa using (total_readInet.map inet).decodes
  | .decimal, data, hlimit, hroom => by
    simpa using (total_atLeast (total_decimal (by omega) (by omega))).decodes
  | .empty, data, _, _ => by
    simpa using (total_pure CqlValue.empty).decodes
  | .duration, data, _, hroom => by
    simpa using (total_readDuration (by omega)).decodes
  | .reversed inner, data, hlimit, hroom => by
    simp only [size] at hlimit hroom
    simpa only [deserializeValue, accepts, countsFit] using
      decodes_deserializeValue limit inner data (by omega) (by omega)
  | .list inner _, data, hlimit, hroom => by
    simp only [size] at hlimit hroom
    have hdata : data.length < 2 ^ 63 := by omega
    simpa using (decodes_items hdata fun elem hlen =>
      decodes_deserializeValue limit inner elem (by omega) (by omega)).map CqlValue.list
  | .set inner _, data, hlimit, hroom => by
    simp only [size] at hlimit hroom
    have hdata : data.length < 2 ^ 63 := by omega
    simpa using (decodes_items hdata fun elem hlen =>
      decodes_deserializeValue limit inner elem (by omega) (by omega)).map CqlValue.set
  | .map key value _, data, hlimit, hroom => by
    simp only [size] at hlimit hroom
    have hdata : data.length < 2 ^ 63 := by omega
    simpa using (decodes_entries hdata
      (fun elem hlen => decodes_deserializeValue limit value elem (by omega) (by omega))
      (fun elem hlen => decodes_deserializeValue limit key elem (by omega)
        (by omega))).map CqlValue.map
  | .tuple types, data, hlimit, hroom => by
    simp only [size] at hlimit hroom
    have hlen := length_le_sizes types
    have h := decodes_deserializeFields limit types data 0 (by omega) (by omega) (by omega)
    simpa using (h.map tuple).allocate (n := types.length) (by omega) (by omega)
  | .udt _ _ fieldNames fieldTypes _, data, hlimit, hroom => by
    simp only [size] at hlimit hroom
    have hlen := length_le_sum_names fieldNames
    have h := decodes_deserializeNamed limit fieldTypes fieldNames data 0 (by omega) (by omega)
      (by omega)
    simpa using (h.map udt).allocate (n := fieldNames.length) (by omega) (by omega)
  | .vector inner dimensions, data, hlimit, hroom => by
    simp only [size] at hlimit hroom
    exact decodes_vector inner dimensions (by omega)

theorem decodes_deserializeFields (limit : Nat) : ∀ (types : List CqlType) (data : Bytes) (pos : Nat),
    sizes types + data.length ≤ limit → sizes types + data.length < 2 ^ 63 →
      pos ≤ data.length + 2 ^ 31 →
      Decodes limit (deserializeFields types data pos)
        (acceptsFields types types.length (data.drop pos))
        (fieldsFit limit types types.length (data.drop pos))
  | [], data, pos, _, _, _ => by
    simpa [deserializeFields, acceptsFields, fieldsFit] using (total_pure _).decodes
  | type :: types, data, pos, hlimit, hroom, hpos => by
    simp only [sizes] at hlimit hroom
    simp only [deserializeFields, length_cons, acceptsFields, fieldsFit]
    refine decodes_field (by omega) hpos
      (fun elem hlen => decodes_deserializeValue limit type elem (by omega) (by omega))
      fun value next hnext hdrop => ?_
    rw [← hdrop, bind_pure_comp]
    exact (decodes_deserializeFields limit types data next (by omega) (by omega) hnext).map _

theorem decodes_deserializeNamed (limit : Nat) :
    ∀ (types : List CqlType) (names : List String) (data : Bytes) (pos : Nat),
    (names.map fun name => name.utf8ByteSize + 1).sum + sizes types + data.length ≤ limit →
      (names.map fun name => name.utf8ByteSize + 1).sum + sizes types + data.length < 2 ^ 63 →
      pos ≤ data.length + 2 ^ 31 →
      Decodes limit (deserializeNamed types names data pos)
        (acceptsFields types names.length (data.drop pos))
        (fieldsFit limit types names.length (data.drop pos))
  | [], names, data, pos, _, _, _ | _ :: _, [], data, pos, _, _, _ => by
    simpa [deserializeNamed, acceptsFields, fieldsFit] using (total_pure _).decodes
  | type :: types, name :: names, data, pos, hlimit, hroom, hpos => by
    simp only [sizes, map_cons, sum_cons] at hlimit hroom
    simp only [deserializeNamed, length_cons, acceptsFields, fieldsFit]
    refine decodes_field (by omega) hpos
      (fun elem hlen => decodes_deserializeValue limit type elem (by omega) (by omega))
      fun value next hnext hdrop => ?_
    rw [← hdrop, bind_pure_comp]
    exact ((decodes_deserializeNamed limit types names data next (by omega) (by omega) hnext).map
      _).allocate (by omega) (by omega)

end

/-- Decoding is safe exactly if the counts fit. -/
theorem decodesSafely_iff {factor : Nat} {type : CqlType} {data : Bytes} (hfactor : 1 ≤ factor)
    (hroom : type.size + data.length < 2 ^ 63) :
    DecodesSafely factor type data ↔
      type.countsFit (factor * (type.size + data.length)) data = true :=
  (decodes_deserializeValue _ type data (Nat.le_mul_of_pos_left _ hfactor) hroom).safe

/-- A list of one `int`. -/
theorem decodesSafely_oneItem :
    DecodesSafely 1 (.list .int false) [0, 0, 0, 1, 0, 0, 0, 4, 0, 0, 0, 7] :=
  (decodesSafely_iff le_rfl (by decide)).mpr (by decide)

/-- A list with the count -1. -/
theorem not_decodesSafely_negativeCount :
    ¬ ∃ factor, DecodesSafely factor (.list .int false) [0xFF, 0xFF, 0xFF, 0xFF] := by
  rintro ⟨factor, hsafe⟩
  exact hsafe.1 rfl

end CassandraVerified.Types
