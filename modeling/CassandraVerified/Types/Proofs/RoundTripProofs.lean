import CassandraVerified.Types.Proofs.CodecProofs

/-!
# Serialized values are decoded to themselves
-/

namespace CassandraVerified.Types

open List
open Checked.Run CqlType CqlValue Wire VectorValue

variable {data : Bytes} {n : Nat} {decode : Bytes → Decoding CqlValue}

theorem readBe_writeLp (h : data.length < 2 ^ 31) (rest : Bytes) :
    Wire.readBe 4 (writeLp data ++ rest) = some (data.length, data ++ rest) := by
  rw [writeLp, append_assoc]
  exact readBe_beBytes_of_lt (by omega) _

theorem frame_writeLp (h : data.length < 2 ^ 31) (rest : Bytes) :
    frame (writeLp data ++ rest) = some (data, rest) := by
  simp only [frame, readBe_writeLp h, h, if_true, Wire.take_append]

theorem field_writeLp (h : data.length < 2 ^ 31) (rest : Bytes) :
    field (writeLp data ++ rest) = (some data, rest) := by
  simp only [field, readBe_writeLp h, h, if_true, take_left, drop_left]

theorem field_nullLength (rest : Bytes) : field (nullLength ++ rest) = (none, rest) := by
  have hread : Wire.readBe 4 (nullLength ++ rest) = some (2 ^ 32 - 1, rest) :=
    readBe_beBytes_of_lt (by omega) rest
  rw [field, hread]
  rfl

variable {items : List CqlValue} {entries : List (CqlValue × CqlValue)}

theorem frames_serializeItems (h : ∀ item ∈ items, item.isShort) :
    frames items.length (serializeItems items) = items.map serializeValue := by
  induction items with
  | nil => rfl
  | cons item items ih =>
    simp only [forall_mem_cons] at h
    have hshort : item.serializeValue.length < 2 ^ 31 := of_decide_eq_true h.1
    simp [serializeItems, frames, frame_writeLp hshort, ih h.2]

theorem framePairs_serializeEntries (h : ∀ e ∈ entries, e.1.isShort ∧ e.2.isShort) :
    framePairs entries.length (serializeEntries entries) =
      entries.map fun e => (e.1.serializeValue, e.2.serializeValue) := by
  induction entries with
  | nil => rfl
  | cons e entries ih =>
    obtain ⟨k, v⟩ := e
    simp only [forall_mem_cons] at h
    have hkey : k.serializeValue.length < 2 ^ 31 := of_decide_eq_true h.1.1
    have hvalue : v.serializeValue.length < 2 ^ 31 := of_decide_eq_true h.1.2
    simp [serializeEntries, serializeEntry, framePairs, frame_writeLp hkey, frame_writeLp hvalue,
      ih h.2]

variable {p : CqlValue → Bool}

@[simp] theorem everyItem_iff :
    everyItem p items ↔ ∀ item ∈ items, item.everywhere p := by
  induction items with
  | nil => simp [everyItem]
  | cons item items ih => simp [everyItem, ih]

@[simp] theorem everyEntry_iff :
    everyEntry p entries ↔ ∀ e ∈ entries, e.1.everywhere p ∧ e.2.everywhere p := by
  induction entries with
  | nil => simp [everyEntry]
  | cons e entries ih =>
    obtain ⟨k, v⟩ := e
    simp [everyEntry, bothOf, ih]

variable {value : Option CqlValue}

@[simp] theorem everyField_cons {fields : List (Option CqlValue)} :
    everyField p (value :: fields) ↔ value.all (everywhere p) ∧ everyField p fields := by
  cases value <;> simp [everyField, ifPresent]

@[simp] theorem everyNamed_cons {field : String × Option CqlValue}
    {fields : List (String × Option CqlValue)} :
    everyNamed p (field :: fields) ↔ field.2.all (everywhere p) ∧ everyNamed p fields := by
  obtain ⟨name, _ | value⟩ := field <;> simp [everyNamed, ofField, ifPresent]

/-- What is asked of a value besides its type. -/
structure Writable (value : CqlValue) : Prop where
  lengths : value.everywhere lengthsFit = true
  finite : value.everywhere finiteVector = true
  room : value.serializeValue.length < 2 ^ 63

theorem Writable.of_isShort {value : CqlValue} (hshort : value.isShort = true)
    (hlengths : value.everywhere lengthsFit = true) (hfinite : value.everywhere finiteVector = true) :
    Writable value :=
  ⟨hlengths, hfinite, (of_decide_eq_true hshort).trans (by norm_num)⟩

theorem readText_utf8Bytes {text : String} (h : (utf8Bytes text).length < 2 ^ 63) :
    (readText (utf8Bytes text)).outcome = .ok text := by
  simp only [readText, toStr, fromUTF8?_utf8Bytes, pure_bind, outcome_bind_of_ok (outcome_allocate_of_lt h),
    outcome_pure]

theorem toVec_ok (h : data.length < 2 ^ 63) : (toVec data).outcome = .ok data := by
  simp only [toVec, outcome_bind_of_ok (outcome_allocate_of_lt h), outcome_pure]

theorem readExact_beBytes {w : Nat} (h : n < 256 ^ w) : readExact w (beBytes w n) = pure n := by
  have hlen : w ≤ (beBytes w n).length := (length_beBytes w n).ge
  simp only [readExact, ck, length_beBytes, ne_eq, not_true, if_false, pure_bind, readBe_of_le hlen]
  rw [take_of_length_le (length_beBytes w n).le, beNat_beBytes_of_lt h]

theorem readLong_beBytes (v : Int64) : readLong (beBytes 8 v.toUInt64.toNat) = pure v := by
  have h : readLong (beBytes 8 v.toUInt64.toNat) =
      (do return (UInt64.ofNat (← readExact 8 (beBytes 8 v.toUInt64.toNat))).toInt64) := by
    simp [readLong, readI64, readExact]
  rw [h, readExact_beBytes (by have := v.toUInt64.toNat_lt; omega), pure_bind, UInt64.ofNat_toNat]
  rfl

theorem readI32_beBytes (v : Int32) (rest : Bytes) :
    readI32 (beBytes 4 v.toUInt32.toNat ++ rest) = pure v := by
  have hlen : 4 ≤ (beBytes 4 v.toUInt32.toNat ++ rest).length := by simp
  rw [readI32_of_le hlen, take_left' (length_beBytes _ _),
    beNat_beBytes_of_lt (by have := v.toUInt32.toNat_lt; omega), UInt32.ofNat_toNat]
  rfl

theorem copyFromSlice_val (bytes : FixedBytes n) : copyFromSlice n bytes.1 = pure bytes :=
  dif_pos bytes.2

theorem readFixed_val (bytes : FixedBytes n) : readFixed n bytes.1 = pure bytes := by
  simp [readFixed, ck, bytes.2, copyFromSlice_val]

theorem readInet_octets (addr : IpAddr) : readInet addr.octets = pure addr := by
  rcases addr with octets | octets
  · simp [readInet, IpAddr.octets, octets.2, copyFromSlice_val]
  · simp only [readInet, IpAddr.octets, octets.2, copyFromSlice_val, pure_bind]
    rfl

theorem readFloats_serialize (values : List UInt32) :
    readFloats values.length (serialize ⟨values⟩) = some values := by
  induction values with
  | nil => rfl
  | cons v values ih =>
    simp only [serialize, flatMap_cons, length_cons, readFloats] at ih ⊢
    rw [readBe_beBytes_of_lt (by have := v.toNat_lt; omega)]
    simp [ih]

theorem readVector_serialize {values : List UInt32} {dimensions : UInt32}
    (hlen : values.length = dimensions.toNat) (hfinite : values.all isFinite = true) :
    (readVector (serialize ⟨values⟩) dimensions).outcome = .ok ⟨values⟩ := by
  have hbytes : (serialize ⟨values⟩).length = dimensions.toNat * 4 := by
    simp [serialize, hlen]
  have hroom : dimensions.toNat < 2 ^ 63 := by have := dimensions.toNat_lt; omega
  have hread := readFloats_serialize values
  rw [hlen] at hread
  have hvalid : validate ⟨values⟩ = none := validateFrom_eq_none.mpr hfinite
  simp only [readVector, deserialize, hbytes, ne_eq, not_true, if_false, hread,
    bind_assoc, pure_bind, outcome_bind_of_ok (outcome_allocate_of_lt hroom), checkVector, hvalid,
    outcome_pure]

theorem readVint32_encodeVint (typeName : String) (front rest : Bytes) (value : Int32) :
    readVint32 typeName (front ++ (encodeVint value.toInt64 ++ rest)) front.length =
      pure (value, (encodeVint value.toInt64).length) := by
  simp [readVint32, sliceFrom_of_le, readVint_of_some (decodeVint_encodeVint _ _), i32TryFrom]

theorem readDuration_encodeVint {months days : Int32} {nanoseconds : Int64}
    (hroom : (encodeVint months.toInt64).length + (encodeVint days.toInt64).length +
      (encodeVint nanoseconds).length < 2 ^ 63) :
    readDuration (encodeVint months.toInt64 ++ (encodeVint days.toInt64 ++ encodeVint nanoseconds)) =
      pure (.duration months days nanoseconds) := by
  have hmonths := readVint32_encodeVint "duration.months" []
    (encodeVint days.toInt64 ++ encodeVint nanoseconds) months
  have hdays := readVint32_encodeVint "duration.days" (encodeVint months.toInt64)
    (encodeVint nanoseconds) days
  have hnanos := decodeVint_encodeVint nanoseconds []
  rw [append_nil] at hnanos
  rw [nil_append, length_nil] at hmonths
  generalize encodeVint months.toInt64 = m at *
  generalize encodeVint days.toInt64 = d at *
  generalize encodeVint nanoseconds = n at *
  have hdrop : (m ++ (d ++ n)).drop (m.length + d.length) = n := by
    rw [← append_assoc, ← length_append, drop_left]
  have hle : m.length + d.length ≤ (m ++ (d ++ n)).length := by
    simp only [length_append]
    omega
  have hend : m.length + d.length + n.length = (m ++ (d ++ n)).length := by
    simp [Nat.add_assoc]
  unfold readDuration
  rw [hmonths, pure_bind]
  simp only [hdays, pure_bind]
  rw [addUsize_of_lt (by omega), pure_bind, sliceFrom_of_le hle, pure_bind, hdrop,
    readVint_of_some hnanos, pure_bind]
  simp only
  rw [addUsize_of_lt (by omega), pure_bind, if_neg (not_not.mpr hend)]

theorem outcome_readField {rest : Bytes} {pos : Nat} (hdata : data.length < 2 ^ 63)
    (hpos : pos ≤ data.length + 2 ^ 31) (hdrop : data.drop pos = writeOpt value ++ rest)
    (hshort : value.all isShort)
    (h : ∀ v, value = some v → (decode v.serializeValue).outcome = .ok v) :
    ∃ next ≤ data.length + 2 ^ 31, data.drop next = rest ∧
      (readField decode data pos).outcome = .ok (value, next) := by
  obtain ⟨next, hnext, hrest, hread⟩ := readField_eq decode hdata hpos
  have hfield : field (data.drop pos) = (value.map serializeValue, rest) := by
    rw [hdrop]
    cases value with
    | none => exact field_nullLength rest
    | some v => exact field_writeLp (of_decide_eq_true hshort) rest
  rw [hfield] at hrest hread
  refine ⟨next, hnext, hrest, ?_⟩
  rw [hread]
  cases value with
  | none => simp [decodeOption]
  | some v => simp [decodeOption, h v rfl]

theorem outcome_counted {β : Type} {b : β} {f : Bytes → Nat → Decoding β} (hcount : n < 2 ^ 31)
    (h : ∀ bytes : Bytes, bytes = beBytes 4 n ++ data → 4 ≤ bytes.length → bytes.drop 4 = data →
      (f bytes n).outcome = .ok b) :
    (readCount (beBytes 4 n ++ data) >>= f (beBytes 4 n ++ data)).outcome = .ok b :=
  outcome_readCount_bind.mpr ⟨n, data, readBe_beBytes_of_lt (by omega) _, hcount,
    h _ rfl (by simp) (drop_left' (length_beBytes 4 _))⟩

theorem Writable.of_list (h : Writable (.list items)) :
    items.length < 2 ^ 31 ∧ (∀ item ∈ items, item.isShort) ∧ ∀ item ∈ items, Writable item := by
  obtain ⟨hlengths, hfinite, -⟩ := h
  simp only [everywhere, lengthsFit, finiteVector, Bool.and_eq_true, decide_eq_true_eq,
    all_eq_true, everyItem_iff] at hlengths hfinite
  obtain ⟨⟨hcount, hshort⟩, hlengths⟩ := hlengths
  exact ⟨hcount, hshort, fun item hmem =>
    .of_isShort (hshort item hmem) (hlengths item hmem) (hfinite.2 item hmem)⟩

theorem Writable.of_map (h : Writable (.map entries)) :
    entries.length < 2 ^ 31 ∧ (∀ e ∈ entries, e.1.isShort ∧ e.2.isShort) ∧
      ∀ e ∈ entries, Writable e.1 ∧ Writable e.2 := by
  obtain ⟨hlengths, hfinite, -⟩ := h
  simp only [everywhere, lengthsFit, finiteVector, Bool.and_eq_true, decide_eq_true_eq,
    all_eq_true, everyEntry_iff] at hlengths hfinite
  obtain ⟨⟨hcount, hshort⟩, hlengths⟩ := hlengths
  exact ⟨hcount, hshort, fun e hmem =>
    ⟨.of_isShort (hshort e hmem).1 (hlengths e hmem).1 (hfinite.2 e hmem).1,
      .of_isShort (hshort e hmem).2 (hlengths e hmem).2 (hfinite.2 e hmem).2⟩⟩

theorem outcome_items (hw : Writable (.list items))
    (h : ∀ item ∈ items, Writable item → (decode item.serializeValue).outcome = .ok item) :
    (do
      let count ← readCount (beBytes 4 items.length ++ serializeItems items)
      readItems decode (beBytes 4 items.length ++ serializeItems items) count 4).outcome =
        .ok items := by
  obtain ⟨hcount, hshort, hitems⟩ := hw.of_list
  refine outcome_counted (f := (readItems decode · · 4)) hcount fun bytes hbytes hle hdrop => ?_
  rw [outcome_readItems (hbytes ▸ hw.room) hle, hdrop, frames_serializeItems hshort, length_map,
    forall₂_map_left_iff, forall₂_same]
  exact ⟨rfl, fun item hmem => h item hmem (hitems item hmem)⟩

theorem outcome_entries {decodeKey : Bytes → Decoding CqlValue}
    (hw : Writable (.map entries))
    (h : ∀ e ∈ entries, Writable e.1 ∧ Writable e.2 →
      (decodeKey e.1.serializeValue).outcome = .ok e.1 ∧
        (decode e.2.serializeValue).outcome = .ok e.2) :
    (do
      let count ← readCount (beBytes 4 entries.length ++ serializeEntries entries)
      readEntries decode decodeKey (beBytes 4 entries.length ++ serializeEntries entries) count
        4).outcome = .ok entries := by
  obtain ⟨hcount, hshort, hentries⟩ := hw.of_map
  refine outcome_counted (f := (readEntries decode decodeKey · · 4)) hcount
    fun bytes hbytes hle hdrop => ?_
  rw [outcome_readEntries (hbytes ▸ hw.room) hle, hdrop, framePairs_serializeEntries hshort,
    length_map, forall₂_map_left_iff, forall₂_same]
  exact ⟨rfl, fun e hmem => h e hmem (hentries e hmem)⟩

theorem map_ok {α β : Type} {x : Decoding α} {a : α} (f : α → β) (h : x.outcome = .ok a) :
    (do return f (← x)).outcome = .ok (f a) :=
  outcome_bind_eq_ok.mpr ⟨a, h, rfl⟩

attribute [local simp] deserializeValue serializeValue

mutual

/-- A value that its type admits is read back from its bytes. -/
theorem outcome_serializeValue : ∀ (type : CqlType) (value : CqlValue), type.size < 2 ^ 63 →
    type.admits value = true → Writable value →
    (deserializeValue type value.serializeValue).outcome = .ok value
  | .ascii, .ascii _, _, _, hw | .varchar, .varchar _, _, _, hw =>
    map_ok _ (readText_utf8Bytes hw.room)
  | .bigint, .bigint v, _, _, _ | .counter, .counter v, _, _, _
  | .timestamp, .timestamp v, _, _, _ | .time, .time v, _, _, _ =>
    map_ok _ (congrArg _ (readLong_beBytes v))
  | .blob, .blob _, _, _, hw | .varint, .varint _, _, _, hw | .composite _, .blob _, _, _, hw
  | .dynamicComposite _, .blob _, _, _, hw => map_ok _ (toVec_ok hw.room)
  | .boolean, .boolean b, _, _, _ => by cases b <;> rfl
  | .double, .double bits, _, _, _ => by
    have h := readExact_beBytes (show bits.toNat < 256 ^ 8 from bits.toNat_lt)
    simp [h]
  | .uuid, .uuid bytes, _, _, _ | .timeuuid, .timeuuid bytes, _, _, _ =>
    map_ok _ (congrArg _ (readFixed_val bytes))
  | .inet, .inet addr, _, _, _ => map_ok _ (congrArg _ (readInet_octets addr))
  | .float, .float bits, _, _, _ => by
    have h := readExact_beBytes (show bits.toNat < 256 ^ 4 from bits.toNat_lt)
    simp [h]
  | .date, .date v, _, _, _ => by
    have h := readExact_beBytes (show v.toNat < 256 ^ 4 from v.toNat_lt)
    simp [h]
  | .smallint, .smallint v, _, _, _ => by
    have h := readExact_beBytes (show v.toUInt16.toNat < 256 ^ 2 from v.toUInt16.toNat_lt)
    simp only [deserializeValue, serializeValue, h, pure_bind, outcome_pure, UInt16.ofNat_toNat]
    rfl
  | .tinyint, .tinyint v, _, _, _ => rfl
  | .int, .int v, _, _, _ => by
    have h := readI32_beBytes v []
    rw [append_nil] at h
    simp [ck, h]
  | .decimal, .decimal unscaled scale, _, _, hw => by
    have hroom : unscaled.length < 2 ^ 63 := by
      have := hw.room
      simp only [serializeValue, length_append] at this
      omega
    have hle : 4 ≤ (beBytes 4 scale.toUInt32.toNat ++ unscaled).length := by simp
    simp [atLeast_of_le hle, readI32_beBytes, sliceFrom_of_le hle, drop_left' (length_beBytes
      4 _), toVec_ok hroom]
  | .empty, .empty, _, _, _ => rfl
  | .duration, .duration months days nanoseconds, _, _, hw => by
    have hroom := hw.room
    simp only [serializeValue, length_append] at hroom
    simp [readDuration_encodeVint hroom]
  | .reversed inner, value, hsize, hadmits, hw =>
    outcome_serializeValue inner value ((Nat.le_succ _).trans_lt hsize) hadmits hw
  | .list inner _, .list items, hsize, hadmits, hw => by
    simp only [size] at hsize
    have h := outcome_items hw fun item hmem =>
      outcome_serializeValue inner item (by omega) (all_eq_true.mp hadmits item hmem)
    simpa using map_ok CqlValue.list h
  | .set inner _, .set items, hsize, hadmits, hw => by
    simp only [size] at hsize
    -- a set is written as the list of its elements
    have h := outcome_items ⟨hw.lengths, hw.finite, hw.room⟩ fun item hmem =>
      outcome_serializeValue inner item (by omega) (all_eq_true.mp hadmits item hmem)
    simpa using map_ok CqlValue.set h
  | .map key value _, .map entries, hsize, hadmits, hw => by
    simp only [size] at hsize
    have h := outcome_entries hw fun e hmem hwritable =>
      have hboth := Bool.and_eq_true_iff.mp (all_eq_true.mp hadmits e hmem)
      ⟨outcome_serializeValue key e.1 (by omega) hboth.1 hwritable.1,
        outcome_serializeValue value e.2 (by omega) hboth.2 hwritable.2⟩
    simpa using map_ok CqlValue.map h
  | .tuple types, .tuple fields, hsize, hadmits, hw => by
    simp only [size] at hsize
    obtain ⟨hlengths, hfinite, hroom⟩ := hw
    simp only [everywhere, lengthsFit, finiteVector, Bool.and_eq_true, Bool.true_and]
      at hlengths hfinite
    have h := outcome_serializeFields types fields (serializeFields fields) 0 (by omega) hadmits
      hlengths.1 hlengths.2 hfinite hroom (Nat.zero_le _) rfl
    have hcount : types.length < 2 ^ 63 := by
      have := length_le_sizes types
      omega
    simp only [deserializeValue, serializeValue, outcome_bind_of_ok (outcome_allocate_of_lt hcount)]
    exact map_ok CqlValue.tuple h
  | .udt _ _ fieldNames fieldTypes _, .udt fields, hsize, hadmits, hw => by
    simp only [size] at hsize
    obtain ⟨hlengths, hfinite, hroom⟩ := hw
    simp only [everywhere, lengthsFit, finiteVector, Bool.and_eq_true, Bool.true_and]
      at hlengths hfinite
    have h := outcome_serializeNamed fieldTypes fieldNames fields (serializeNamed fields) 0
      (by omega) hadmits hlengths.1 hlengths.2 hfinite hroom (Nat.zero_le _) rfl
    have hcount : fieldNames.length < 2 ^ 63 := by
      have := length_le_sum_names fieldNames
      omega
    simp only [deserializeValue, serializeValue, outcome_bind_of_ok (outcome_allocate_of_lt hcount)]
    exact map_ok CqlValue.udt h
  | .vector .float dimensions, .vector value, _, hadmits, hw => by
    have h := readVector_serialize (of_decide_eq_true hadmits) hw.finite
    simp only [deserializeValue, serializeValue]
    exact map_ok CqlValue.vector h

theorem outcome_serializeFields : ∀ (types : List CqlType) (fields : List (Option CqlValue))
    (data : Bytes) (pos : Nat), sizes types < 2 ^ 63 → admitsFields types fields = true →
    fields.all (·.all isShort) = true → everyField lengthsFit fields = true →
    everyField finiteVector fields = true → data.length < 2 ^ 63 → pos ≤ data.length + 2 ^ 31 →
    data.drop pos = serializeFields fields →
    (deserializeFields types data pos).outcome = .ok fields
  | [], [], _, _, _, _, _, _, _, _, _, _ => rfl
  | type :: types, value :: fields, data, pos, hsize, hadmits, hshort, hlengths, hfinite, hdata,
      hpos, hdrop => by
    simp only [sizes] at hsize
    simp only [admitsFields, Bool.and_eq_true, all_cons] at hadmits hshort
    rw [everyField_cons] at hlengths hfinite
    obtain ⟨next, hnext, hrest, hread⟩ := outcome_readField hdata hpos hdrop hshort.1
      fun v hv => outcome_serializeValue type v (by omega) (by simpa [hv] using hadmits.1)
        (.of_isShort (by simpa [hv] using hshort.1) (by simpa [hv] using hlengths.1)
          (by simpa [hv] using hfinite.1))
    have h := outcome_serializeFields types fields data next (by omega) hadmits.2 hshort.2
      hlengths.2 hfinite.2 hdata hnext hrest
    simp only [deserializeFields, outcome_bind_of_ok hread]
    exact map_ok _ h

theorem outcome_serializeNamed : ∀ (types : List CqlType) (names : List String)
    (fields : List (String × Option CqlValue)) (data : Bytes) (pos : Nat),
    (names.map fun name => name.utf8ByteSize + 1).sum + sizes types < 2 ^ 63 →
    admitsNamed types names fields = true → (fields.all fun f => f.2.all isShort) = true →
    everyNamed lengthsFit fields = true → everyNamed finiteVector fields = true →
    data.length < 2 ^ 63 → pos ≤ data.length + 2 ^ 31 → data.drop pos = serializeNamed fields →
    (deserializeNamed types names data pos).outcome = .ok fields
  | [], _, [], _, _, _, _, _, _, _, _, _, _ => rfl
  | _ :: _, [], [], _, _, _, _, _, _, _, _, _, _ => rfl
  | type :: types, name :: names, (fieldName, value) :: fields, data, pos, hsize, hadmits, hshort,
      hlengths, hfinite, hdata, hpos, hdrop => by
    simp only [sizes, map_cons, sum_cons] at hsize
    simp only [admitsNamed, Bool.and_eq_true, decide_eq_true_eq, all_cons] at hadmits hshort
    rw [everyNamed_cons] at hlengths hfinite
    obtain ⟨⟨rfl, hadmits⟩, hadmitsRest⟩ := hadmits
    obtain ⟨next, hnext, hrest, hread⟩ := outcome_readField hdata hpos hdrop hshort.1
      fun v hv => outcome_serializeValue type v (by omega) (by simpa [hv] using hadmits)
        (.of_isShort (by simpa [hv] using hshort.1) (by simpa [hv] using hlengths.1)
          (by simpa [hv] using hfinite.1))
    have h := outcome_serializeNamed types names fields data next (by omega) hadmitsRest hshort.2
      hlengths.2 hfinite.2 hdata hnext hrest
    have hroom : fieldName.utf8ByteSize < 2 ^ 63 := by omega
    simp only [deserializeNamed, outcome_bind_of_ok hread,
      outcome_bind_of_ok (outcome_allocate_of_lt hroom)]
    exact map_ok _ h

end

/-- Decoding undoes serialization, for every type and every value of it with finite vectors. -/
theorem deserializeValue_serializeValue {type : CqlType} {value : CqlValue}
    (hsize : type.size < 2 ^ 63) (hroom : value.serializeValue.length < 2 ^ 63)
    (hadmits : type.admits value = true) (hlengths : value.everywhere lengthsFit = true)
    (hfinite : value.everywhere finiteVector = true) :
    (deserializeValue type value.serializeValue).outcome = .ok value :=
  outcome_serializeValue type value hsize hadmits ⟨hlengths, hfinite, hroom⟩

/-- A tuple of a list of maps, a duration, a vector and a UDT. -/
def nestedType : CqlType :=
  .tuple [.list (.map .varchar .int false) true, .duration, .vector .float 2,
    .udt "ks" "address" ["street", "zip"] [.varchar, .reversed .bigint] false]

def nestedValue : CqlValue :=
  .tuple [some (.list [.map [(.varchar "a", .int (-1))], .map []]), none,
    some (.vector ⟨[0x3F800000, 0x80000000]⟩),
    some (.udt [("street", some (.varchar "")), ("zip", some (.bigint 7))])]

theorem deserializeValue_serializeValue_nested :
    (deserializeValue nestedType nestedValue.serializeValue).outcome = .ok nestedValue :=
  deserializeValue_serializeValue (by decide) (by decide) (by decide) (by decide) (by decide)

/-- A vector with a NaN is written, but its bytes are rejected. -/
theorem deserializeValue_serializeValue_nan :
    admits (.vector .float 1) (.vector ⟨[0x7FC00000]⟩) = true ∧
      (CqlValue.vector ⟨[0x7FC00000]⟩).everywhere lengthsFit = true ∧
      (deserializeValue (.vector .float 1)
        (CqlValue.vector ⟨[0x7FC00000]⟩).serializeValue).outcome ≠
          .ok (.vector ⟨[0x7FC00000]⟩) := by
  have hrejected : (deserializeValue (.vector .float 1)
      (CqlValue.vector ⟨[0x7FC00000]⟩).serializeValue).outcome =
        .err (.invalidVector "Invalid vector component at index 0: NaN") := by
    rfl
  refine ⟨by decide, by decide, ?_⟩
  rw [hrejected]
  nofun

end CassandraVerified.Types
