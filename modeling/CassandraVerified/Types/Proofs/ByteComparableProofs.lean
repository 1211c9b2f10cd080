import CassandraVerified.Lib.Lexicographic
import CassandraVerified.Types.ByteComparable
import CassandraVerified.Types.Proofs.CodecProofs
import CassandraVerified.Types.Proofs.TypeParserProofs

/-!
# Which encodings are ordered as the values
-/

namespace CassandraVerified.Types

open List
open Wire (Bytes beBytes beNat)
open Lexicographic CqlType CqlValue

variable {parse : String → Option CqlType} {inline : CqlType → Bytes → Bytes → Option Ordering}
  {left right : Bytes} {n w : Nat} {inner : CqlType} {types : List CqlType}

theorem length_flipSign (bytes : Bytes) : (flipSign bytes).length = bytes.length := by
  cases bytes <;> rfl

theorem cmpSignedFixed_of_length (hl : left.length = n) (hr : right.length = n) :
    cmpSignedFixed n left right = some (cmpBytes (flipSign left) (flipSign right)) := by
  rw [cmpSignedFixed, if_neg (by omega), take_of_length_le hl.le, take_of_length_le hr.le]

theorem toInt_toInt8 (b : UInt8) : b.toInt8.toInt = ((b ^^^ 0x80).toNat : Int) - 128 := by
  have h : ∀ n : Fin 256, (UInt8.ofNat n).toInt8.toInt = ((UInt8.ofNat n ^^^ 0x80).toNat : Int) - 128 := by
    decide +kernel
  simpa using h ⟨b.toNat, b.toNat_lt⟩

theorem compare_toInt8 (l r : UInt8) :
    compare l.toInt8 r.toInt8 = compare (l ^^^ 0x80) (r ^^^ 0x80) := by
  have hl := toInt_toInt8 l
  have hr := toInt_toInt8 r
  rw [compare_uint8]
  exact compare_congr (Int8.lt_iff_toInt_lt.trans (by omega)) (Int8.lt_iff_toInt_lt.trans (by omega))

def escape (b : UInt8) : Bytes := if b = 0 then [0, 0xFF] else [b]

theorem encodeByteString_cons (b : UInt8) (data : Bytes) :
    encodeByteString (b :: data) = escape b ++ encodeByteString data := by
  simp [encodeByteString, escape]

theorem separated_end (b : UInt8) (data : Bytes) :
    Separated (encodeByteString []) (encodeByteString (b :: data)) .lt := by
  rw [encodeByteString_cons]
  by_cases hb : b = 0
  · subst hb
    exact .inr ⟨[0], 0, 0xFF, [], encodeByteString data, rfl, rfl, by decide, nofun⟩
  · have hlt : 0 < b := UInt8.pos_iff_ne_zero.mpr hb
    rw [escape, if_neg hb]
    exact .inr ⟨[], 0, b, [0], encodeByteString data, rfl, rfl, Std.compare_eq_lt.mpr hlt, nofun⟩

theorem separated_escape {l r : UInt8} (hne : l ≠ r) (ls rs : Bytes) :
    Separated (escape l ++ ls) (escape r ++ rs) (compare l r) := by
  have hcmp : compare l r ≠ .eq := fun h => hne (Std.compare_eq_iff_eq.mp h)
  have hhead (b : UInt8) : ∃ t, escape b = b :: t := by
    unfold escape
    split
    · next h => exact ⟨[0xFF], by rw [h]⟩
    · exact ⟨[], rfl⟩
  obtain ⟨tl, htl⟩ := hhead l
  obtain ⟨tr, htr⟩ := hhead r
  rw [htl, htr]
  exact separated_of_compare_ne hcmp

theorem separated_encodeByteString (left right : Bytes) :
    Separated (encodeByteString left) (encodeByteString right) (cmpBytes left right) := by
  induction left generalizing right with
  | nil =>
    cases right with
    | nil => exact separated_refl _
    | cons r right => exact separated_end r right
  | cons l left ih =>
    cases right with
    | nil => exact (separated_end l left).symm
    | cons r right =>
      have hcons : cmpBytes (l :: left) (r :: right) = (compare l r).then (cmpBytes left right) :=
        List.compare_cons_cons
      rw [hcons, encodeByteString_cons, encodeByteString_cons]
      by_cases hlr : l = r
      · subst hlr
        rw [Std.compare_eq_iff_eq.mpr rfl]
        exact (ih right).append_left (escape l)
      · rw [then_of_ne fun h => hlr (Std.compare_eq_iff_eq.mp h)]
        exact separated_escape hlr _ _

/-! ## Floats -/

/-- The number that a float with the given bits is written as. -/
def floatKey (sign bits : Nat) : Nat := if sign ≤ bits then 2 * sign - 1 - bits else bits + sign

theorem totalCmp_eq {k : Nat} (hw : w = k + 1) (left right : BitVec w) : totalCmp w left right =
      compare (floatKey (2 ^ k) left.toNat) (floatKey (2 ^ k) right.toNat) := by
  subst hw
  have hkey (x : BitVec (k + 1)) : (x ^^^ (x.sshiftRight k >>> 1)).toInt =
      (floatKey (2 ^ k) x.toNat : Int) - 2 ^ k := by
    have hlt : x.toNat < 2 * 2 ^ k := by
      have := x.isLt
      rwa [pow_succ'] at this
    have hcast : (2 : Int) ^ k = ((2 ^ k : Nat) : Int) := by norm_cast
    rw [Bits.toInt_xor_sshiftRight, floatKey, hcast]
    split <;> omega
  simp only [totalCmp, Nat.add_sub_cancel, hkey]
  exact compare_congr (by omega) (by omega)

theorem encodeFloating_of_length (h : left.length = w) :
    encodeFloating w left = beBytes w (floatKey (2 ^ (8 * w - 1)) (beNat left)) := by
  simp only [encodeFloating, h, lt_irrefl, if_false, take_of_length_le h.le]
  rfl

/-- Floats of one width are ordered as they are encoded. -/
theorem separated_encodeFloating (hw : 0 < w) (hl : left.length = w) (hr : right.length = w) :
    ∃ o, cmpFloating w left right = some o ∧
      Separated (encodeFloating w left) (encodeFloating w right) o := by
  have hbits : 8 * w = (8 * w - 1) + 1 := by omega
  have hpow : 256 ^ w = 2 * 2 ^ (8 * w - 1) := by
    rw [← pow_succ', ← hbits, pow_mul]
    norm_num
  have hlt {bytes : Bytes} (h : bytes.length = w) : beNat bytes < 2 * 2 ^ (8 * w - 1) := by
    rw [← hpow, ← h]
    exact Wire.beNat_lt bytes
  have hkey {bytes : Bytes} (h : bytes.length = w) :
      floatKey (2 ^ (8 * w - 1)) (beNat bytes) < 256 ^ w := by
    have := hlt h
    rw [hpow, floatKey]
    split <;> omega
  have hnat {bytes : Bytes} (h : bytes.length = w) :
      (BitVec.ofNat (8 * w) (beNat bytes)).toNat = beNat bytes := by
    rw [BitVec.toNat_ofNat]
    apply Nat.mod_eq_of_lt
    rw [hbits, pow_succ']
    exact hlt h
  have hcmp : cmpFloating w left right = some (compare
      (floatKey (2 ^ (8 * w - 1)) (beNat left)) (floatKey (2 ^ (8 * w - 1)) (beNat right))) := by
    simp only [cmpFloating, readUnsigned, hl, hr, lt_irrefl, if_false,
      take_of_length_le hl.le, take_of_length_le hr.le]
    rw [← hnat hl, ← hnat hr, ← totalCmp_eq hbits, hnat hl, hnat hr]
    rfl
  refine ⟨_, hcmp, ?_⟩
  rw [encodeFloating_of_length hl, encodeFloating_of_length hr,
    ← compare_beBytes_of_lt (hkey hl) (hkey hr)]
  exact separated_of_length_eq (by simp)

/-! ## UUIDs and vectors -/

theorem separated_encodeUuid (hl : left.length = 16) (hr : right.length = 16) :
    ∃ o, cmpUuid left right = some o ∧ Separated (encodeUuid left) (encodeUuid right) o := by
  have hversion {uuid : Bytes} (h : uuid.length = 16) :
      ∃ v, uuidVersion uuid = some v ∧ encodeUuid uuid = v :: uuid := by
    have hget : ∃ b, uuid[6]? = some b := ⟨uuid[6], List.getElem?_eq_getElem (by omega)⟩
    obtain ⟨b, hb⟩ := hget
    have hv : uuidVersion uuid = some ((b >>> 4) &&& 15) := by simp [uuidVersion, hb]
    exact ⟨_, hv, by simp [encodeUuid, h, hv]⟩
  obtain ⟨vl, hvl, hel⟩ := hversion hl
  obtain ⟨vr, hvr, her⟩ := hversion hr
  have hcmp : cmpUuid left right = some (compare (vl :: left) (vr :: right)) := by
    rw [List.compare_cons_cons]
    by_cases h : vl = vr
    · subst h
      simp [cmpUuid, hvl, hvr, cmpBytes]
    · have hne : compare vl vr ≠ .eq := fun heq => h (Std.compare_eq_iff_eq.mp heq)
      simp [cmpUuid, hvl, hvr, h, then_of_ne hne]
  refine ⟨_, hcmp, ?_⟩
  rw [hel, her]
  exact separated_of_length_eq (by simp [hl, hr])

theorem thenWith_some (o : Ordering) (o' : Ordering) :
    thenWith (some o) (some o') = some (o.then o') := by
  cases o <;> rfl

/-- Elements of one size are ordered by the first pair that differs. -/
theorem separated_encodeElements {size : Nat} {cmp : Bytes → Bytes → Option Ordering}
    {encode : Bytes → Bytes} (h : ∀ l r : Bytes, l.length = size → r.length = size →
      ∃ o, cmp l r = some o ∧ Separated (encode l) (encode r) o)
    (n idx : Nat) (hl : (idx + n) * size ≤ left.length) (hr : (idx + n) * size ≤ right.length) :
    ∃ o, cmpElements cmp left right size n idx = some o ∧
      Separated (encodeElements encode left size n idx) (encodeElements encode right size n idx)
        o := by
  induction n generalizing idx with
  | zero => exact ⟨.eq, rfl, separated_refl _⟩
  | succ n ih =>
    have hidx : (idx + 1 + n) * size = (idx + (n + 1)) * size := by ring
    have hstart : idx * size + size ≤ (idx + (n + 1)) * size := by nlinarith
    have hlen {bytes : Bytes} (hb : (idx + (n + 1)) * size ≤ bytes.length) :
        ((bytes.drop (idx * size)).take size).length = size := by
      simp only [length_take, length_drop]
      omega
    obtain ⟨o, hcmp, hsep⟩ := h _ _ (hlen hl) (hlen hr)
    obtain ⟨o', hcmp', hsep'⟩ := ih (idx + 1) (hidx ▸ hl) (hidx ▸ hr)
    refine ⟨o.then o', ?_, hsep.append hsep'⟩
    simp only [cmpElements, hcmp, hcmp', thenWith_some]

attribute [local simp] encodeByteComparable

theorem separated_encodeVector {dimensions : UInt32}
    (hl : left.length = dimensions.toNat * 4) (hr : right.length = dimensions.toNat * 4) :
    ∃ o, compareWith parse inline (.vector .float dimensions) left right = some o ∧
      Separated (encodeByteComparable (.vector .float dimensions) left)
        (encodeByteComparable (.vector .float dimensions) right) o := by
  have hdims : dimensions.toNat < 2 ^ 32 := dimensions.toNat_lt
  have hmin : min (4 * dimensions.toNat) (2 ^ 64 - 1) = 4 * dimensions.toNat := by omega
  have hsize : CqlType.float.fixedSize = some 4 := rfl
  have helem (l r : Bytes) (hl : l.length = 4) (hr : r.length = 4) :
      ∃ o, cmpFloating 4 l r = some o ∧ Separated (encodeFloating 4 l) (encodeFloating 4 r) o :=
    separated_encodeFloating (by omega) hl hr
  obtain ⟨o, hcmp, hsep⟩ :=
    separated_encodeElements helem dimensions.toNat 0 (by omega : _ ≤ left.length)
      (by omega : _ ≤ right.length)
  refine ⟨o, ?_, ?_⟩
  · rw [← hcmp]
    simp only [compareWith, cmpVector, hsize, hmin, hl, hr, Nat.mul_comm]
    simp
  · simp only [encodeByteComparable, encodeVector, hsize, hmin, hl, hr, Nat.mul_comm]
    simpa using hsep

/-! ## Reversal -/

/-- The bytes under an even or odd number of reversals. -/
def inverted (straight : Bool) (bytes : Bytes) : Bytes :=
  if straight then bytes else bytes.map fun b => ~~~b

def turned (straight : Bool) (o : Ordering) : Ordering := if straight then o else o.swap

def Valid (type : CqlType) (data : Bytes) : Prop :=
  ∃ v, (deserializeValue type data).outcome = .ok v

/-- The values are ordered as their encodings, under reversals around the type. -/
def OrderedUnder (unicode : CharClass) (type : CqlType) (straight : Bool) : Prop :=
  ∀ left right, Valid type left → Valid type right →
    ∃ o, compareBytes unicode type left right = some o ∧
      cmpBytes (inverted straight (encodeByteComparable type left))
        (inverted straight (encodeByteComparable type right)) = turned straight o

variable {unicode : CharClass} {type : CqlType} {straight : Bool}

theorem byteOrdered_iff_orderedUnder : ByteOrdered unicode type ↔ OrderedUnder unicode type true := by
  refine forall₄_congr fun left right _ _ => ⟨fun h => ⟨_, h, rfl⟩, ?_⟩
  rintro ⟨o, hcmp, hbytes⟩
  rw [EncodedAs, hcmp]
  exact congrArg some hbytes.symm

theorem compare_not (l r : UInt8) : compare (~~~l) (~~~r) = (compare l r).swap := by
  have hnot (b : UInt8) : (~~~b).toNat = 255 - b.toNat ∧ b.toNat < 256 :=
    ⟨by rw [UInt8.toNat_not]; rfl, b.toNat_lt⟩
  have hl := hnot l
  have hr := hnot r
  rw [Std.OrientedOrd.eq_swap (a := l), Ordering.swap_swap, compare_uint8, compare_uint8]
  exact compare_congr (by omega) (by omega)

/-- The encodings are separated and ordered as the values, so that it does not matter what stands
behind them. -/
def SeparatedBy (unicode : CharClass) (type : CqlType) : Prop :=
  ∀ left right, Valid type left → Valid type right →
    ∃ o, compareBytes unicode type left right = some o ∧
      Separated (encodeByteComparable type left) (encodeByteComparable type right) o

theorem SeparatedBy.orderedUnder (h : SeparatedBy unicode type) :
    OrderedUnder unicode type straight := by
  intro left right hl hr
  obtain ⟨o, hcmp, hsep⟩ := h left right hl hr
  refine ⟨o, hcmp, ?_⟩
  cases straight with
  | true => exact hsep.compare_eq
  | false => exact (hsep.map_swap compare_not).compare_eq

theorem SeparatedBy.reversed (h : SeparatedBy unicode inner) :
    SeparatedBy unicode (.reversed inner) := by
  intro left right hl hr
  obtain ⟨o, hcmp, hsep⟩ := h left right hl hr
  exact ⟨o.swap, congrArg (Option.map Ordering.swap) hcmp, hsep.map_swap compare_not⟩

theorem orderedUnder_reversed :
    OrderedUnder unicode (.reversed inner) straight ↔ OrderedUnder unicode inner (!straight) := by
  refine forall₄_congr fun left right _ _ => ?_
  have hcmp : compareBytes unicode (.reversed inner) left right =
      (compareBytes unicode inner left right).map Ordering.swap := rfl
  have hnot (bytes : Bytes) : (bytes.map fun b => ~~~b).map (fun b => ~~~b) = bytes := by
    simp [Function.comp_def]
  cases straight with
  | true =>
    simp only [hcmp, Option.map_eq_some_iff, encodeByteComparable, inverted, turned, if_true,
      Bool.not_true, Bool.false_eq_true, if_false]
    grind
  | false =>
    simp only [hcmp, Option.map_eq_some_iff, encodeByteComparable, inverted, turned, if_true,
      Bool.not_false, Bool.false_eq_true, if_false, hnot]
    constructor
    · rintro ⟨-, ⟨o, ho, rfl⟩, hbytes⟩
      exact ⟨o, ho, by rw [hbytes, Ordering.swap_swap]⟩
    · rintro ⟨o, ho, hbytes⟩
      exact ⟨o.swap, ⟨o, ho, rfl⟩, by rw [hbytes, Ordering.swap_swap]⟩

/-! ## Types whose encodings are ordered -/

theorem separatedBy_signed (hlen : ∀ data, Valid type data → data.length = n)
    (hcmp : ∀ left right, compareBytes unicode type left right = cmpSignedFixed n left right)
    (hencode : ∀ data, encodeByteComparable type data = flipSign data) :
    SeparatedBy unicode type := by
  intro left right hl hr
  have hl := hlen left hl
  have hr := hlen right hr
  refine ⟨_, (hcmp left right).trans (cmpSignedFixed_of_length hl hr), ?_⟩
  rw [hencode, hencode]
  exact separated_of_length_eq (by simp only [length_flipSign, hl, hr])

theorem separatedBy_long (value : Int64 → CqlValue)
    (hread : ∀ data, deserializeValue type data = do return value (← readLong data))
    (hcmp : ∀ left right, compareBytes unicode type left right = cmpSignedFixed 8 left right)
    (hencode : ∀ data, encodeByteComparable type data = flipSign data) :
    SeparatedBy unicode type := by
  refine separatedBy_signed (fun data h => ?_) hcmp hencode
  rw [Valid, hread] at h
  exact (total_readLong.map value : Total 0 _ (data.length = 8)).ok.mp h

theorem separatedBy_string
    (hcmp : ∀ left right, compareBytes unicode type left right = some (cmpBytes left right))
    (hencode : ∀ data, encodeByteComparable type data = encodeByteString data) :
    SeparatedBy unicode type := by
  intro left right _ _
  refine ⟨_, hcmp left right, ?_⟩
  rw [hencode, hencode]
  exact separated_encodeByteString left right

theorem separatedBy_oneByte (encode : UInt8 → UInt8)
    (hlen : ∀ data, Valid type data → data.length = 1)
    (hcmp : ∀ l r, compareBytes unicode type [l] [r] = some (compare (encode l) (encode r)))
    (hencode : ∀ b, encodeByteComparable type [b] = [encode b]) :
    SeparatedBy unicode type := by
  intro left right hl hr
  obtain ⟨l, rfl⟩ := length_eq_one_iff.mp (hlen left hl)
  obtain ⟨r, rfl⟩ := length_eq_one_iff.mp (hlen right hr)
  refine ⟨_, hcmp l r, ?_⟩
  have h : compare [encode l] [encode r] = compare (encode l) (encode r) := by
    rw [List.compare_cons_cons]
    cases compare (encode l) (encode r) <;> rfl
  rw [hencode, hencode, ← h]
  exact separated_of_length_eq rfl

theorem separatedBy_tinyint : SeparatedBy unicode .tinyint :=
  separatedBy_oneByte (· ^^^ 0x80) (fun data =>
      (total_ck fun hlen => (total_index (by omega)).map fun b => tinyint b.toInt8 :
        Total 0 _ (data.length = 1)).ok.mp)
    (fun l r => congrArg some (compare_toInt8 l r)) fun _ => rfl

theorem separatedBy_boolean : SeparatedBy unicode .boolean := separatedBy_oneByte id (fun data =>
      (total_ck fun hlen => (total_index (by omega)).map fun b => boolean (b != 0) :
        Total 0 _ (data.length = 1)).ok.mp)
    (fun _ _ => rfl) fun _ => rfl

theorem separatedBy_floating (hw : 0 < w) (hlen : ∀ data, Valid type data → data.length = w)
    (hcmp : ∀ left right, compareBytes unicode type left right = cmpFloating w left right)
    (hencode : ∀ data, encodeByteComparable type data = encodeFloating w data) :
    SeparatedBy unicode type := by
  intro left right hl hr
  rw [hcmp, hencode, hencode]
  exact separated_encodeFloating hw (hlen left hl) (hlen right hr)

theorem separatedBy_uuid : SeparatedBy unicode .uuid := by
  have hlen (data : Bytes) (h : Valid .uuid data) : data.length = 16 :=
    (total_readFixed.map uuid : Total 0 _ (data.length = 16)).ok.mp h
  exact fun left right hl hr => separated_encodeUuid (hlen left hl) (hlen right hr)

theorem separatedBy_vector (inner : CqlType) (dimensions : UInt32) :
    SeparatedBy unicode (.vector inner dimensions) := by
  have hvalid (data : Bytes) (h : Valid (.vector inner dimensions) data) :
      inner = .float ∧ data.length = dimensions.toNat * 4 := by
    have haccepts := (decodes_vector inner dimensions (le_refl data.length)).ok.mp h
    cases inner with
    | float =>
      rw [accepts, decide_eq_true_eq] at haccepts
      exact ⟨rfl, haccepts.1⟩
    | _ => exact absurd haccepts Bool.false_ne_true
  intro left right hl hr
  obtain ⟨rfl, hlen⟩ := hvalid left hl
  exact separated_encodeVector hlen (hvalid right hr).2

theorem separatedBy_of_isComponent : ∀ type : CqlType, type.isComponent = true →
    SeparatedBy unicode type
  | .tinyint, _ => separatedBy_tinyint
  | .smallint, _ => separatedBy_signed (n := 2) (fun data h =>
      (total_readExact.map _ : Total 0 _ (data.length = 2)).ok.mp h) (fun _ _ => rfl) fun _ => rfl
  | .int, _ => by
    refine separatedBy_signed (n := 4) (fun data h => ?_) (fun _ _ => rfl) fun _ => rfl
    simp only [Valid, deserializeValue, readI32, bind_assoc, pure_bind] at h
    exact (total_ck fun h : data.length = 4 => (total_readBe h.ge : Total 0 _ True).map fun n =>
      int (UInt32.ofNat n).toInt32).ok.mp h
  | .bigint, _ => separatedBy_long bigint (fun _ => rfl) (fun _ _ => rfl) fun _ => rfl
  | .timestamp, _ => separatedBy_long timestamp (fun _ => rfl) (fun _ _ => rfl) fun _ => rfl
  | .time, _ => separatedBy_long time (fun _ => rfl) (fun _ _ => rfl) fun _ => rfl
  | .counter, _ => separatedBy_long counter (fun _ => rfl) (fun _ _ => rfl) fun _ => rfl
  | .boolean, _ => separatedBy_boolean
  | .ascii, _ | .varchar, _ | .blob, _ => separatedBy_string (fun _ _ => rfl) fun _ => rfl
  | .reversed inner, h => (separatedBy_of_isComponent inner h).reversed

theorem orderedUnder_raw
    (hcmp : ∀ left right, compareBytes unicode type left right = some (cmpBytes left right))
    (hencode : ∀ data, encodeByteComparable type data = data) : OrderedUnder unicode type true := by
  intro left right _ _
  refine ⟨_, hcmp left right, ?_⟩
  rw [hencode, hencode]
  rfl

/-! ## Keys of several components -/

theorem separated_components (unicode : CharClass) {left right : List Bytes}
    (htypes : ∀ type ∈ types, type.isComponent = true) (hl : Forall₂ Valid types left)
    (hr : Forall₂ Valid types right) (idx : Nat) :
    ∃ o, compareComponents unicode types left right = some o ∧ Separated
        ((((types.zip left).map fun (type, data) => encodeByteComparable type data).zipIdx idx).flatMap
          fun (component, idx) => separate idx component)
        ((((types.zip right).map fun (type, data) => encodeByteComparable type data).zipIdx
          idx).flatMap fun (component, idx) => separate idx component) o := by
  induction hl generalizing right idx with
  | nil =>
    cases hr
    exact ⟨.eq, rfl, separated_refl []⟩
  | @cons type l types left hl _ ih =>
    cases hr with
    | @cons _ r _ right hr hrs =>
      rw [forall_mem_cons] at htypes
      obtain ⟨o, hcmp, hsep⟩ := separatedBy_of_isComponent type htypes.1 l r hl hr
      obtain ⟨o', hcmp', hsep'⟩ := ih htypes.2 hrs (idx + 1)
      refine ⟨o.then o', ?_, ?_⟩
      · rw [compareComponents, hcmp, hcmp', thenWith_some]
      · have hfirst : Separated (separate idx (encodeByteComparable type l))
            (separate idx (encodeByteComparable type r)) o := by
          unfold separate
          split
          · exact hsep.cons separator
          · exact hsep
        exact hfirst.append hsep'

/-- Keys are ordered as the tuples of their components, and none is a proper front of another. -/
theorem encodeTypedComponents_ordered (unicode : CharClass) {types : List CqlType}
    {left right : List Bytes} (htypes : ∀ type ∈ types, type.isComponent = true)
    (hl : Forall₂ Valid types left) (hr : Forall₂ Valid types right) :
    compareComponents unicode types left right =
        some (cmpBytes (encodeTypedComponents (types.zip left))
          (encodeTypedComponents (types.zip right))) ∧
      (encodeTypedComponents (types.zip left) <+: encodeTypedComponents (types.zip right) →
        encodeTypedComponents (types.zip left) = encodeTypedComponents (types.zip right)) := by
  obtain ⟨o, hcmp, hsep⟩ := separated_components unicode htypes hl hr 0
  have hkeys : Separated (encodeTypedComponents (types.zip left))
      (encodeTypedComponents (types.zip right)) (o.then .eq) :=
    hsep.append (separated_refl [terminator])
  rw [Ordering.then_eq] at hkeys
  exact ⟨hcmp.trans (congrArg some hkeys.compare_eq.symm), hkeys.eq_of_isPrefix⟩

/-- A descending text and a number. -/
theorem encodeTypedComponents_ordered_textInt :
    compareComponents .ascii [.reversed .varchar, .int] [[97, 0], [0, 0, 0, 1]]
        [[97], [0xFF, 0xFF, 0xFF, 0xFF]] =
      some (cmpBytes (encodeTypedComponents [(.reversed .varchar, [97, 0]), (.int, [0, 0, 0, 1])])
        (encodeTypedComponents [(.reversed .varchar, [97]), (.int, [0xFF, 0xFF, 0xFF, 0xFF])])) :=
  (@encodeTypedComponents_ordered .ascii [.reversed .varchar, .int] [[97, 0], [0, 0, 0, 1]]
    [[97], [0xFF, 0xFF, 0xFF, 0xFF]] (by decide)
    (.cons ⟨_, rfl⟩ (.cons ⟨_, rfl⟩ .nil)) (.cons ⟨_, rfl⟩ (.cons ⟨_, rfl⟩ .nil))).1

/-! ## Types whose encodings are not ordered -/

theorem not_orderedUnder (left right : Bytes) (o : Ordering) (hl : Valid type left)
    (hr : Valid type right) (hcmp : compareBytes unicode type left right = some o)
    (hne : cmpBytes (inverted straight (encodeByteComparable type left))
      (inverted straight (encodeByteComparable type right)) ≠ turned straight o) :
    ¬ OrderedUnder unicode type straight := by
  intro h
  obtain ⟨o', hcmp', hbytes⟩ := h left right hl hr
  rw [hcmp] at hcmp'
  obtain rfl := Option.some.inj hcmp'
  exact hne hbytes

theorem not_orderedUnder_date : ¬ OrderedUnder unicode .date straight :=
  not_orderedUnder [0, 0, 0, 0] [0x80, 0, 0, 0] .lt ⟨_, rfl⟩ ⟨_, rfl⟩ rfl
    (by cases straight <;> decide)

theorem not_orderedUnder_timeuuid : ¬ OrderedUnder unicode .timeuuid straight :=
  not_orderedUnder [0, 0, 0, 1, 0, 0, 0, 0, 0, 0, 0, 0, 0, 0, 0, 0]
    [0, 0, 0, 0, 0, 1, 0, 0, 0, 0, 0, 0, 0, 0, 0, 0] .lt ⟨_, rfl⟩ ⟨_, rfl⟩
    (show cmpTimeuuid _ _ = _ by decide) (by cases straight <;> decide)

theorem not_orderedUnder_varint : ¬ OrderedUnder unicode .varint straight :=
  not_orderedUnder [] [0xFF] .lt ⟨_, rfl⟩ ⟨_, rfl⟩ rfl (by cases straight <;> decide)

theorem not_orderedUnder_decimal : ¬ OrderedUnder unicode .decimal straight :=
  not_orderedUnder [0xFF, 0xFF, 0xFF, 0xFF] [0, 0, 0, 0] .lt ⟨_, rfl⟩ ⟨_, rfl⟩ rfl
    (by cases straight <;> decide)

theorem not_orderedUnder_duration : ¬ OrderedUnder unicode .duration straight :=
  not_orderedUnder [1, 0, 0] [0, 0, 0] .lt ⟨_, rfl⟩ ⟨_, rfl⟩ rfl (by cases straight <;> decide)

theorem not_orderedUnder_collection (hl : Valid type [0, 0, 0, 0]) (hr : Valid type [0, 0, 0, 0, 0])
    (hcmp : compareBytes unicode type [0, 0, 0, 0] [0, 0, 0, 0, 0] = some .eq)
    (hencode : ∀ data, encodeByteComparable type data = data) :
    ¬ OrderedUnder unicode type straight := by
  refine not_orderedUnder _ _ .eq hl hr hcmp ?_
  rw [hencode, hencode]
  cases straight <;> decide

theorem not_orderedUnder_inet : ¬ OrderedUnder unicode .inet false :=
  not_orderedUnder [0, 0, 0, 0] [0, 0, 0, 0, 0, 0, 0, 0, 0, 0, 0, 0, 0, 0, 0, 0] .lt
    ⟨_, rfl⟩ ⟨_, rfl⟩ rfl (by decide)

theorem not_orderedUnder_empty : ¬ OrderedUnder unicode .empty false :=
  not_orderedUnder [] [0] .lt ⟨_, rfl⟩ ⟨_, rfl⟩ rfl (by decide)

theorem acceptsFields_of_lt {bytes : Bytes} (h : bytes.length < 4) :
    acceptsFields types n bytes = true := by
  have hfield : field bytes = (none, bytes) := by
    rw [field, Wire.readBe_eq_none.mpr h]
  induction types generalizing n with
  | nil => rfl
  | cons type types ih =>
    cases n with
    | zero => rfl
    | succ n =>
      rw [acceptsFields, hfield, ih]
      rfl

theorem compareTuple_of_lt (hl : left.length < 4) (hr : right.length < 4) :
    compareTuple parse inline types left right 0 0 = some .eq := by
  have hread {bytes : Bytes} (h : bytes.length < 4) : readOptionalElem bytes 0 = (none, 0) :=
    if_pos (by omega)
  induction types with
  | nil => rfl
  | cons type types ih =>
    rw [compareTuple, hread hl, hread hr]
    exact ih

theorem not_orderedUnder_fields (hsize : type.size < 2 ^ 62)
    (haccepts : ∀ data : Bytes, data.length < 4 → accepts type data)
    (hcmp : compareBytes unicode type [] [0] = some .eq)
    (hencode : ∀ data, encodeByteComparable type data = data) :
    ¬ OrderedUnder unicode type straight := by
  have hvalid (data : Bytes) (h : data.length < 4) : Valid type data :=
    (decodes_deserializeValue _ type data le_rfl (by omega)).ok.mpr (haccepts data h)
  refine not_orderedUnder [] [0] .eq (hvalid [] (by decide)) (hvalid [0] (by decide)) hcmp ?_
  rw [hencode, hencode]
  cases straight <;> simp [inverted, turned] <;> decide

theorem not_orderedUnder_tuple (hsize : (CqlType.tuple types).size < 2 ^ 62) :
    ¬ OrderedUnder unicode (.tuple types) straight :=
  not_orderedUnder_fields hsize (fun _ => acceptsFields_of_lt)
    (compareTuple_of_lt (by decide) (by decide)) fun _ => rfl

/-! ### Composites

Two composites that differ only in the end-of-component byte: it is compared as a signed byte, unless
the components before it are told apart, which they are not in both orders. -/

theorem thenWith_eq_some {first : Option Ordering} {second o : Ordering}
    (h : thenWith first (some second) = some o) (hne : second ≠ o) : first = some o := by
  rcases first with _ | _ | _ | _ <;> simp_all [thenWith]

theorem not_orderedUnder_of_eoc (low high : Bytes) (c : Option Ordering)
    (hlow : Valid type low) (hhigh : Valid type high)
    (hlt : compareBytes unicode type low high = thenWith c (some .gt))
    (hgt : compareBytes unicode type high low = thenWith c (some .lt))
    (hsep : Separated (encodeByteComparable type low) (encodeByteComparable type high) .lt) :
    ¬ OrderedUnder unicode type straight := by
  intro h
  have hturned {o o' : Ordering} (heq : turned straight o = turned straight o') : o = o' := by
    cases straight <;> cases o <;> cases o' <;> simp_all [turned]
  have hbytes {l r : Bytes} {o : Ordering} (hsep : Separated l r o) :
      cmpBytes (inverted straight l) (inverted straight r) = turned straight o := by
    cases straight with
    | true => exact hsep.compare_eq
    | false => exact (hsep.map_swap compare_not).compare_eq
  obtain ⟨o, ho, ho'⟩ := h low high hlow hhigh
  obtain rfl := hturned ((hbytes hsep).symm.trans ho')
  obtain ⟨o, hp, hp'⟩ := h high low hhigh hlow
  obtain rfl := hturned ((hbytes hsep.symm).symm.trans hp')
  have hfirst := thenWith_eq_some (hlt.symm.trans ho) (by decide)
  have hsecond := thenWith_eq_some (hgt.symm.trans hp) (by decide)
  rw [hfirst] at hsecond
  simp at hsecond

theorem separated_eoc (front : Bytes) :
    Separated (front ++ [0, 0, 0]) (front ++ [0, 0, 0xFF]) .lt :=
  .inr ⟨front ++ [0, 0], 0, 0xFF, [], [], by simp, by simp, by decide, nofun⟩

theorem not_orderedUnder_composite : ¬ OrderedUnder unicode (.composite types) straight :=
  not_orderedUnder_of_eoc [0, 0, 0] [0, 0, 0xFF]
    (compareAt (fun name => (parseType unicode name).toOption)
      (compareDepth (fun name => (parseType unicode name).toOption) 3) types 0 [] [])
    ⟨_, rfl⟩ ⟨_, rfl⟩ rfl rfl (separated_eoc [])

theorem readComparator_bytesType (unicode : CharClass) (data : Bytes) :
    readComparator (fun name => (parseType unicode name).toOption) []
      (0 :: 9 :: (utf8Bytes "BytesType" ++ data)) = some (.blob, data) := by
  have hheader : Wire.readBe 2 (0 :: 9 :: (utf8Bytes "BytesType" ++ data)) =
      some (9, utf8Bytes "BytesType" ++ data) := rfl
  have htake : Wire.take 9 (utf8Bytes "BytesType" ++ data) = some (utf8Bytes "BytesType", data) :=
    Wire.take_append (by decide) data
  simp only [readComparator, hheader, htake, Option.bind_eq_bind, Option.bind_some,
    fromUTF8?_utf8Bytes, parseType_bytesType]
  rfl

theorem readComparator_alias (key : UInt8) (comparator : CqlType)
    (aliases : List (UInt8 × CqlType)) (data : Bytes) :
    readComparator parse ((key, comparator) :: aliases) (0x80 :: key :: data) =
      some (comparator, data) := by
  have hkey : UInt8.ofNat (2 ^ 15 + key.toNat) = key := by
    rw [UInt8.ofNat_add]
    simp
  have hheader : Wire.readBe 2 (0x80 :: key :: data) = some (2 ^ 15 + key.toNat, data) := rfl
  simp only [readComparator, hheader, Option.bind_eq_bind, Option.bind_some, hkey,
    Nat.le_add_right, if_true, lookup_cons_self]
  rfl

variable {aliases : List (UInt8 × CqlType)}

theorem deserializeDynamicComposite_single {front : Bytes} {comparator : CqlType}
    (h : ∀ data, readComparator parse aliases (front ++ data) = some (comparator, data))
    (eoc : UInt8) :
    deserializeDynamicComposite parse aliases (front ++ [0, 0, eoc]).length (front ++ [0, 0, eoc]) =
      some [⟨comparator, [], eoc⟩] := by
  have hlen : (front ++ [0, 0, eoc]).length = front.length + 2 + 1 := by simp
  have hcomponent : readComponent [0, 0, eoc] = some (⟨[], eoc⟩, []) := rfl
  rw [hlen, deserializeDynamicComposite, if_neg (by simp), h]
  simp only [Option.bind_eq_bind, Option.bind_some, hcomponent]
  cases front <;> rfl

theorem exists_readComparator (unicode : CharClass) (aliases : List (UInt8 × CqlType)) :
    ∃ front comparator, front.length < 2 ^ 62 ∧ ∀ data,
      readComparator (fun name => (parseType unicode name).toOption) aliases (front ++ data) =
        some (comparator, data) := by
  cases aliases with
  | nil =>
    have hlen : (utf8Bytes "BytesType").length = 9 := by decide
    exact ⟨0 :: 9 :: utf8Bytes "BytesType", .blob, by simp [hlen], readComparator_bytesType unicode⟩
  | cons entry aliases =>
    obtain ⟨key, comparator⟩ := entry
    exact ⟨[0x80, key], comparator, by simp, readComparator_alias key comparator aliases⟩

theorem not_orderedUnder_dynamicComposite :
    ¬ OrderedUnder unicode (.dynamicComposite aliases) straight := by
  obtain ⟨front, comparator, hfront, h⟩ := exists_readComparator unicode aliases
  have hvalid (eoc : UInt8) : Valid (.dynamicComposite aliases) (front ++ [0, 0, eoc]) := by
    have hroom : (front ++ [0, 0, eoc]).length < 2 ^ 63 := by
      rw [length_append, length_cons, length_cons, length_singleton]
      omega
    exact ((total_toVec hroom le_rfl).map blob).ok.mpr trivial
  have hcmp (eoc eoc' : UInt8) : compareBytes unicode (.dynamicComposite aliases)
      (front ++ [0, 0, eoc]) (front ++ [0, 0, eoc']) =
        thenWith (compareDepth (fun name => (parseType unicode name).toOption)
          (front ++ [0, 0, eoc]).length comparator [] [])
            (thenWith (some (compareEoc eoc eoc')) (some .eq)) := by
    rw [compareBytes, compareDepth, compareWith, cmpDynamicComposite,
      deserializeDynamicComposite_single h, deserializeDynamicComposite_single h]
    simp only [cmpDynamicComponents, Std.ReflOrd.compare_self]
    rfl
  have hlen (eoc : UInt8) : (front ++ [0, 0, eoc]).length = front.length + 3 := by simp
  simp only [hlen] at hcmp
  exact not_orderedUnder_of_eoc _ _ _ (hvalid 0) (hvalid 0xFF) (hcmp 0 0xFF) (hcmp 0xFF 0)
    (separated_eoc front)

/-! ## All types -/

theorem orderedUnder_iff (unicode : CharClass) : ∀ (type : CqlType) (straight : Bool),
    type.size < 2 ^ 62 → (OrderedUnder unicode type straight ↔ type.orderedByBytes straight = true)
  | .tinyint, _, _ | .smallint, _, _ | .int, _, _ | .bigint, _, _ | .counter, _, _
  | .timestamp, _, _ | .time, _, _ | .boolean, _, _ | .ascii, _, _ | .varchar, _, _ | .blob, _, _ =>
    iff_of_true (separatedBy_of_isComponent _ rfl).orderedUnder rfl
  | .float, _, _ => by
    refine iff_of_true (separatedBy_floating (w := 4) (by decide) (fun data h => ?_) (fun _ _ => rfl)
      fun _ => rfl).orderedUnder rfl
    exact (total_readExact.map _ : Total 0 _ (data.length = 4)).ok.mp h
  | .double, _, _ => by
    refine iff_of_true (separatedBy_floating (w := 8) (by decide) (fun data h => ?_) (fun _ _ => rfl)
      fun _ => rfl).orderedUnder rfl
    exact (total_readExact.map _ : Total 0 _ (data.length = 8)).ok.mp h
  | .uuid, _, _ => iff_of_true separatedBy_uuid.orderedUnder rfl
  | .vector inner dimensions, _, _ =>
    iff_of_true (separatedBy_vector inner dimensions).orderedUnder rfl
  | .inet, straight, _ => by
    cases straight with
    | true => exact iff_of_true (orderedUnder_raw (fun _ _ => rfl) fun _ => rfl) rfl
    | false => exact iff_of_false not_orderedUnder_inet nofun
  | .empty, straight, _ => by
    cases straight with
    | true => exact iff_of_true (orderedUnder_raw (fun _ _ => rfl) fun _ => rfl) rfl
    | false => exact iff_of_false not_orderedUnder_empty nofun
  | .reversed inner, straight, hsize => by
    have hinner : inner.size < 2 ^ 62 := (Nat.lt_succ_self _).trans hsize
    exact orderedUnder_reversed.trans (orderedUnder_iff unicode inner (!straight) hinner)
  | .date, _, _ => iff_of_false not_orderedUnder_date nofun
  | .timeuuid, _, _ => iff_of_false not_orderedUnder_timeuuid nofun
  | .varint, _, _ => iff_of_false not_orderedUnder_varint nofun
  | .decimal, _, _ => iff_of_false not_orderedUnder_decimal nofun
  | .duration, _, _ => iff_of_false not_orderedUnder_duration nofun
  | .list _ _, _, _ | .set _ _, _, _ | .map _ _ _, _, _ => iff_of_false
      (not_orderedUnder_collection ⟨_, rfl⟩ ⟨_, rfl⟩ rfl fun _ => rfl) nofun
  | .tuple _, _, hsize => iff_of_false (not_orderedUnder_tuple hsize) nofun
  | .udt _ _ _ _ _, _, hsize => iff_of_false (not_orderedUnder_fields hsize
      (fun _ => acceptsFields_of_lt) (compareTuple_of_lt (by decide) (by decide)) fun _ => rfl) nofun
  | .composite _, _, _ => iff_of_false not_orderedUnder_composite nofun
  | .dynamicComposite _, _, _ => iff_of_false not_orderedUnder_dynamicComposite nofun

/-- Values are ordered as their encodings exactly for the types whose encoding keeps what the
comparator looks at. -/
theorem byteOrdered_iff (unicode : CharClass) {type : CqlType} (hsize : type.size < 2 ^ 62) :
    ByteOrdered unicode type ↔ type.orderedByBytes true = true :=
  byteOrdered_iff_orderedUnder.trans (orderedUnder_iff unicode type true hsize)

theorem byteOrdered_reversedText : ByteOrdered CharClass.ascii (.reversed .varchar) :=
  (byteOrdered_iff CharClass.ascii (by decide)).mpr rfl

/-- Dates are compared as unsigned days, but encoded as signed ones. -/
theorem not_byteOrdered_date : ¬ ByteOrdered CharClass.ascii .date :=
  fun h => not_orderedUnder_date (byteOrdered_iff_orderedUnder.mp h)

end CassandraVerified.Types
