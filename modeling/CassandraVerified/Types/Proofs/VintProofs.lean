import CassandraVerified.Lib.Bits
import CassandraVerified.Types.Vint

/-!
# Variable-length integers are read back, and alike by both codings
-/

namespace CassandraVerified.Types

open List
open Wire (Bytes beBytes beNat)
open UInt8

theorem getElem_zigzag (x : BitVec 64) {i : Nat} (hi : i + 1 < 64) :
    (x <<< 1 ^^^ x.sshiftRight 63)[i + 1] = (x[i] ^^ x.msb) := by
  rw [BitVec.getElem_xor, Bits.sshiftRight_msb, BitVec.getElem_shiftLeft]
  cases x.msb <;> simp [-BitVec.reduceAllOnes]

theorem zigzag_and_one (x : BitVec 64) :
    (x <<< 1 ^^^ x.sshiftRight 63) &&& 1#64 = if x.msb then 1#64 else 0#64 := by
  rw [Bits.sshiftRight_msb]
  ext i hi
  rcases i with _ | i
  · cases x.msb <;> simp [-BitVec.reduceAllOnes]
  · cases x.msb <;> simp [-BitVec.reduceAllOnes]

theorem zigzag_roundTrip (x : BitVec 64) :
    (x <<< 1 ^^^ x.sshiftRight 63) >>> 1 ^^^ -((x <<< 1 ^^^ x.sshiftRight 63) &&& 1#64) = x := by
  have hneg : -(if x.msb then 1#64 else 0#64) = if x.msb then BitVec.allOnes 64 else 0#64 := by
    cases x.msb <;> rfl
  rw [zigzag_and_one, hneg]
  ext i hi
  rw [BitVec.getElem_xor, BitVec.getElem_ushiftRight]
  rcases Nat.lt_or_ge (i + 1) 64 with h | h
  · rw [BitVec.getLsbD_eq_getElem (by omega)]
    simp only [Nat.add_comm 1 i, getElem_zigzag x h]
    cases x.msb <;> simp [-BitVec.reduceAllOnes]
  · obtain rfl : i = 63 := by omega
    have hlast : x[63] = x.msb := by rw [BitVec.msb_eq_getLsbD_last]; rfl
    rw [hlast, BitVec.getLsbD_of_ge _ _ (by omega)]
    cases x.msb <;> simp [-BitVec.reduceAllOnes]

theorem zigzagDecode_zigzagEncode (v : Int64) : zigzagDecode (zigzagEncode v) = v := by
  apply Int64.toBitVec_inj.1
  simpa [zigzagDecode, zigzagEncode] using zigzag_roundTrip v.toBitVec

theorem computeUvintSize_bounds (v : UInt64) : 1 ≤ computeUvintSize v ∧ computeUvintSize v ≤ 9 ∧
      (computeUvintSize v ≠ 9 → v.toNat < 2 ^ (7 * computeUvintSize v)) := by
  unfold computeUvintSize
  grind

theorem length_encodeUvint (v : UInt64) : (encodeUvint v).length = computeUvintSize v := by
  obtain ⟨hpos, hle, -⟩ := computeUvintSize_bounds v
  unfold encodeUvint
  simp only
  split
  · simp_all
  · split
    · simp_all
    · simp only [length_cons, Wire.length_beBytes]
      omega

theorem computeUvintSize_le {v : UInt64} {k : Nat} (hk : 1 ≤ k) (hv : v.toNat < 2 ^ (7 * k)) :
    computeUvintSize v ≤ k := by
  rcases Nat.lt_or_ge 8 k with hlarge | hsmall
  · exact (computeUvintSize_bounds v).2.1.trans hlarge
  · unfold computeUvintSize
    interval_cases k <;> grind

/-- The high bits, which stand in the first byte. -/
theorem highBits_lt {v : UInt64} {extra : Nat} (hsize : computeUvintSize v = extra + 1)
    (hextra : extra < 8) :
    v.toNat >>> (8 * extra) < 2 ^ (7 - extra) ∧ v.toNat >>> (8 * extra) < 128 := by
  have hhigh : v.toNat >>> (8 * extra) < 2 ^ (7 - extra) := by
    have hv := (computeUvintSize_bounds v).2.2 (by omega)
    rw [Nat.shiftRight_eq_div_pow, Nat.div_lt_iff_lt_mul (Nat.two_pow_pos _), ← pow_add]
    convert hv using 2
    omega
  exact ⟨hhigh, hhigh.trans_le (Nat.pow_le_pow_right (by omega) (Nat.sub_le 7 extra))⟩

/-- The bits of the value in the first byte. -/
def uvintMask (extra : Nat) : UInt8 := ((1 : UInt8) <<< ofNat (8 - (extra + 1))) - 1

theorem uvintMarker_spec : ∀ extra : Fin 8, 0 < extra.val → ∀ high : Fin 128,
    high.val < 2 ^ (7 - extra.val) → leadingOnes (uvintMarker extra (ofNat high)) 8 = extra ∧
        uvintMarker extra (ofNat high) &&& uvintMask extra = ofNat high := by
  decide +kernel

theorem leadingOnes_of_lt : ∀ low : Fin 128, leadingOnes (ofNat low) 8 = 0 ∧
    ofNat low &&& uvintMask 0 = ofNat low := by
  decide +kernel

theorem leadingOnes_le (b : UInt8) (n : Nat) : leadingOnes b n ≤ n := by
  induction n with
  | zero => exact le_rfl
  | succ n ih =>
    unfold leadingOnes
    split <;> omega

theorem decodeUvint_cons (first : UInt8) (rest : Bytes) : decodeUvint (first :: rest) =
    if rest.length < leadingOnes first 8 then none
    else some (UInt64.ofNat (beNat ((first &&& uvintMask (leadingOnes first 8)) ::
      rest.take (leadingOnes first 8))), leadingOnes first 8 + 1) := by
  simp only [decodeUvint, length_cons, Nat.add_lt_add_iff_right]
  split
  · next hfull =>
    -- nothing is left of a first byte of ones
    have hmask : first &&& uvintMask 8 = 0 := UInt8.and_zero
    have hroom : rest.length + 1 < 9 ↔ rest.length < 8 := by omega
    simp [hfull, hmask, hroom, Wire.beNat_cons]
  · rfl

theorem decodeUvint_encodeUvint (v : UInt64) (rest : Bytes) :
    decodeUvint (encodeUvint v ++ rest) = some (v, computeUvintSize v) := by
  obtain ⟨hpos, hle, hlt⟩ := computeUvintSize_bounds v
  have htake (w : Nat) : (beBytes w v.toNat ++ rest).take w = beBytes w v.toNat :=
    take_left' (Wire.length_beBytes w v.toNat)
  unfold encodeUvint
  simp only
  split
  · next hsize =>
    -- one byte
    have hsmall : v.toNat < 128 := by simpa [hsize] using hlt
    obtain ⟨hones, hmask⟩ := leadingOnes_of_lt ⟨v.toNat, hsmall⟩
    have hbyte : v.toUInt8 = ofNat v.toNat := rfl
    rw [singleton_append, hbyte, decodeUvint_cons, hones, hmask, hsize]
    simp [beNat, Nat.mod_eq_of_lt (show v.toNat < 256 by omega)]
  · next hsize =>
    split
    · next hfull =>
      -- nine bytes
      have hones : leadingOnes 0xFF 8 = 8 := by decide
      have hmask : (0xFF : UInt8) &&& uvintMask 8 = 0 := by decide
      have hv : v.toNat < 256 ^ 8 := by have := v.toNat_lt; omega
      rw [cons_append, decodeUvint_cons, hones, if_neg (by simp), hmask, htake, Wire.beNat_cons,
        Wire.beNat_beBytes_of_lt hv, hfull]
      simp
    · next hmid =>
      obtain ⟨extra, hextra⟩ : ∃ extra, computeUvintSize v = extra + 1 :=
        ⟨_, (Nat.sub_add_cancel hpos).symm⟩
      obtain ⟨hhigh, hhigh128⟩ := highBits_lt hextra (by omega)
      obtain ⟨hones, hmask⟩ := uvintMarker_spec ⟨extra, by omega⟩ (by simp only; omega)
        ⟨_, hhigh128⟩ hhigh
      simp only at hones hmask
      have hnat : (ofNat (v.toNat >>> (8 * extra))).toNat = v.toNat / 256 ^ extra := by
        rw [toNat_ofNat', Nat.mod_eq_of_lt (by omega), Nat.shiftRight_eq_div_pow, pow_mul]
        norm_num
      simp only [hextra, Nat.add_sub_cancel, cons_append]
      rw [decodeUvint_cons, hones, if_neg (by simp), hmask, htake, Wire.beNat_cons, hnat,
        Wire.length_beBytes, Wire.beNat_beBytes, Nat.div_add_mod, UInt64.ofNat_toNat]

theorem decodeUvint_append {data : Bytes} {r : UInt64 × Nat} (h : decodeUvint data = some r)
    (suffix : Bytes) : decodeUvint (data ++ suffix) = some r ∧ r.2 ≤ data.length := by
  cases data with
  | nil => cases h
  | cons first rest =>
    rw [cons_append, decodeUvint_cons]
    rw [decodeUvint_cons] at h
    split at h
    · cases h
    · next hlen =>
      rw [if_neg (by rw [length_append]; omega), take_append_of_le_length (by omega), h]
      cases h
      exact ⟨rfl, Nat.succ_le_succ (not_lt.mp hlen)⟩

theorem decodeVint_encodeVint (v : Int64) (rest : Bytes) :
    decodeVint (encodeVint v ++ rest) = some (v, (encodeVint v).length) := by
  simp [decodeVint, encodeVint, decodeUvint_encodeUvint, zigzagDecode_zigzagEncode,
    length_encodeUvint]

theorem uvintMask_lt : ∀ extra : Fin 9, (uvintMask extra).toNat < 2 ^ (7 - extra.val) := by
  decide

/-- A value from one byte and `extra` more has seven bits for each of them. -/
theorem computeUvintSize_le_of_decode {data : Bytes} {v : UInt64} {size : Nat}
    (h : decodeUvint data = some (v, size)) : computeUvintSize v ≤ size := by
  cases data with
  | nil => cases h
  | cons first rest =>
    rw [decodeUvint_cons] at h
    have hextra := leadingOnes_le first 8
    generalize leadingOnes first 8 = extra at h hextra
    split at h
    · cases h
    · cases h
      rcases Nat.lt_or_ge extra 8 with hlt | hge
      · refine computeUvintSize_le (by omega) ?_
        have hlow := Wire.beNat_lt (rest.take extra)
        have hlen : (rest.take extra).length = extra := length_take_of_le (by omega)
        have hhigh : (first &&& uvintMask extra).toNat < 2 ^ (7 - extra) := by
          rw [UInt8.toNat_and]
          exact Nat.and_le_right.trans_lt (uvintMask_lt ⟨extra, by omega⟩)
        rw [Wire.beNat_cons, hlen]
        rw [hlen] at hlow
        refine (Nat.mod_le _ _).trans_lt ?_
        calc 256 ^ extra * (first &&& uvintMask extra).toNat + beNat (rest.take extra)
          _ < 256 ^ extra * ((first &&& uvintMask extra).toNat + 1) := by rw [mul_add_one]; omega
          _ ≤ 256 ^ extra * 2 ^ (7 - extra) := Nat.mul_le_mul_left _ hhigh
          _ = 2 ^ (7 * (extra + 1)) := by
            rw [show 256 = 2 ^ 8 by rfl, ← pow_mul, ← pow_add]
            congr 1
            omega
      · exact (computeUvintSize_bounds _).2.1.trans (by omega)

namespace Varint

theorem unsignedVintSize_eq (v : UInt64) : unsignedVintSize v = computeUvintSize v := by
  simp only [unsignedVintSize, computeUvintSize, Nat.size_le]

theorem ones_or_eq : ∀ extra : Fin 8, 0 < extra.val → ∀ high : Fin 128,
    high.val < 2 ^ (7 - extra.val) →
      (~~~((1 <<< ofNat (8 - extra)) - 1) ||| ofNat high &&& ((1 <<< ofNat (8 - extra - 1)) - 1)) =
        uvintMarker extra (ofNat high) := by
  decide +kernel

theorem encodeUnsignedVint_eq (v : UInt64) : encodeUnsignedVint v = encodeUvint v := by
  obtain ⟨hpos, hle, -⟩ := computeUvintSize_bounds v
  simp only [encodeUnsignedVint, encodeUvint, unsignedVintSize_eq]
  split_ifs with hone hnine
  · rfl
  · rfl
  · obtain ⟨hhigh, hhigh128⟩ := @highBits_lt v (computeUvintSize v - 1) (by omega) (by omega)
    exact congrArg (· :: _) (ones_or_eq ⟨computeUvintSize v - 1, by omega⟩ (by simp only; omega)
      ⟨_, hhigh128⟩ hhigh)

theorem firstByte_spec : ∀ first : Fin 256,
    extraBytesForFirst (ofNat first) = leadingOnes (ofNat first) 8 ∧
      (leadingOnes (ofNat first) 8 = 0 → ofNat first &&& uvintMask 0 = ofNat first) := by
  decide +kernel

/-- What the first decoder accepts, the second one reads alike. -/
theorem decodeUnsignedVint_eq {data : Bytes} {r : UInt64 × Nat} (h : decodeUvint data = some r) :
    decodeUnsignedVint data = some r ∧ readUnsignedVint data = some (r.1, data.drop r.2) := by
  cases data with
  | nil => cases h
  | cons first rest =>
    obtain ⟨hfirst, hzero⟩ := firstByte_spec ⟨first.toNat, first.toNat_lt⟩
    simp only [UInt8.ofNat_toNat] at hfirst hzero
    rw [decodeUvint_cons] at h
    have hle := leadingOnes_le first 8
    simp only [decodeUnsignedVint, readUnsignedVint, hfirst]
    generalize leadingOnes first 8 = extra at *
    split at h
    · cases h
    cases h
    next hlen =>
    rcases Nat.eq_zero_or_pos extra with rfl | hpos
    · simp [hzero rfl, beNat]
    · simp only [if_neg hpos.ne', if_neg hlen, drop_succ_cons]
      split
      · next hge =>
        obtain rfl : extra = 8 := by omega
        have hmask : first &&& uvintMask 8 = 0 := UInt8.and_zero
        simp [hlen, hmask, Wire.beNat_cons]
      · exact ⟨rfl, rfl⟩

end Varint

/-- A signed variable-length integer is read back from its bytes, these are the shortest that are
read as it, no shorter front of them is read, and the two implementations agree. -/
theorem vint_exact : (∀ v, VintExact v) ∧ ∀ first rest, DecodesAlike first rest := by
  refine ⟨fun v => ?_, fun first rest => ⟨?_, fun v size h => ?_⟩⟩
  · have hlength : (encodeVint v).length = computeUvintSize (zigzagEncode v) := length_encodeUvint _
    refine ⟨decodeVint_encodeVint v, ?_, ?_, Varint.encodeUnsignedVint_eq _⟩
    · intro data size h
      exact hlength.trans_le (computeUvintSize_le_of_decode h)
    · intro bytes hbegins hne
      obtain ⟨suffix, hsuffix⟩ := id hbegins
      cases hbytes : decodeUvint bytes with
      | none => simp [decodeVint, hbytes]
      | some r =>
        obtain ⟨happend, hle⟩ := decodeUvint_append hbytes suffix
        have hwhole := decodeUvint_encodeUvint (zigzagEncode v) []
        rw [append_nil, ← encodeVint, ← hsuffix, happend] at hwhole
        cases hwhole
        exact absurd (hbegins.eq_of_length_le (hlength.trans_le hle)) hne
  · have hroom (n : Nat) : (rest.take n).length < n ↔ rest.length < n := by
      rw [length_take]
      omega
    simp only [decodeVint, decodeUvint_cons, take_take, Nat.min_self, hroom]
  · obtain ⟨r, hr, hvalue⟩ := Option.map_eq_some_iff.mp h
    cases hvalue
    obtain ⟨hdecode, hread⟩ := Varint.decodeUnsignedVint_eq hr
    simp [Varint.decodeVint, Varint.readVint, hdecode, hread]

end CassandraVerified.Types
