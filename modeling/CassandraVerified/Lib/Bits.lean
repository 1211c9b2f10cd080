import Mathlib

/-!
# Sign bits

An arithmetic shift by all but one bit spreads the sign; inverting the bits below the sign turns a
magnitude around.
-/

namespace Bits

theorem sshiftRight_msb {w : ℕ} (x : BitVec w) :
    x.sshiftRight (w - 1) = if x.msb then BitVec.allOnes w else 0#w := by
  ext i hi
  rw [BitVec.getElem_sshiftRight]
  have hsign : (if h : w - 1 + i < w then x[w - 1 + i] else x.msb) = x.msb := by
    split
    · next h =>
      obtain rfl : i = 0 := by omega
      rw [BitVec.msb_eq_getLsbD_last, ← BitVec.getLsbD_eq_getElem, Nat.add_zero]
    · rfl
  rw [hsign]
  split <;> simp_all

theorem xor_allOnes_below {k low : ℕ} (h : low < 2 ^ k) : low ^^^ (2 ^ k - 1) = 2 ^ k - 1 - low := by
  have hnot : (~~~ BitVec.ofNat k low).toNat = (BitVec.ofNat k low ^^^ BitVec.allOnes k).toNat := by
    rw [BitVec.xor_allOnes]
  rw [BitVec.toNat_not, BitVec.toNat_xor, BitVec.toNat_ofNat, BitVec.toNat_allOnes,
    Nat.mod_eq_of_lt h] at hnot
  exact hnot.symm

theorem two_pow_add_xor {k low : ℕ} (h : low < 2 ^ k) :
    (2 ^ k + low) ^^^ (2 ^ k - 1) = 2 ^ k + (2 ^ k - 1 - low) := by
  have hpos := Nat.two_pow_pos k
  have hdiv : ((2 ^ k + low) ^^^ (2 ^ k - 1)) / 2 ^ k = 1 := by
    rw [Nat.xor_div_two_pow, Nat.add_div_left _ hpos, Nat.div_eq_of_lt h,
      Nat.div_eq_of_lt (by omega)]
    rfl
  have hmod : ((2 ^ k + low) ^^^ (2 ^ k - 1)) % 2 ^ k = 2 ^ k - 1 - low := by
    rw [Nat.xor_mod_two_pow, Nat.add_mod_left, Nat.mod_eq_of_lt h, Nat.mod_eq_of_lt (by omega),
      xor_allOnes_below h]
  have hsum := Nat.div_add_mod ((2 ^ k + low) ^^^ (2 ^ k - 1)) (2 ^ k)
  rw [hdiv, hmod] at hsum
  omega

/-- The signed number with the magnitude of a negative one inverted. -/
theorem toInt_xor_sshiftRight {k : ℕ} (x : BitVec (k + 1)) : (x ^^^ (x.sshiftRight k >>> 1)).toInt =
      if 2 ^ k ≤ x.toNat then 2 ^ k - 1 - (x.toNat : ℤ) else x.toNat := by
  have hlt : x.toNat < 2 * 2 ^ k := by
    have := x.isLt
    rwa [pow_succ'] at this
  have htwo : (2 : ℕ) ^ (k + 1) = 2 * 2 ^ k := pow_succ' 2 k
  have hshift : (BitVec.allOnes (k + 1) >>> 1).toNat = 2 ^ k - 1 := by
    rw [BitVec.toNat_ushiftRight, BitVec.toNat_allOnes, Nat.shiftRight_eq_div_pow, htwo]
    omega
  have hcast : (2 : ℤ) ^ k = ((2 ^ k : ℕ) : ℤ) := by norm_cast
  have hsign := sshiftRight_msb x
  rw [Nat.add_sub_cancel] at hsign
  rw [hsign]
  by_cases hmsb : x.msb
  · have hge : 2 ^ k ≤ x.toNat := by
      have := BitVec.msb_eq_true_iff_two_mul_ge.mp hmsb
      omega
    obtain ⟨low, hlow⟩ := Nat.exists_eq_add_of_le hge
    have hbits : (x ^^^ (BitVec.allOnes (k + 1) >>> 1)).toNat = 2 ^ k + (2 ^ k - 1 - low) := by
      rw [BitVec.toNat_xor, hshift, hlow, two_pow_add_xor (by omega)]
    rw [if_pos hmsb, BitVec.toInt_eq_toNat_cond, hbits, htwo, if_neg (by omega), if_pos hge, hcast]
    omega
  · have hsmall : x.toNat < 2 ^ k := by
      have := mt BitVec.msb_eq_true_iff_two_mul_ge.mpr hmsb
      omega
    have hzero : x ^^^ (0#(k + 1) >>> 1) = x := by simp
    rw [if_neg hmsb, hzero, BitVec.toInt_eq_toNat_cond, htwo, if_pos (by omega), if_neg (by omega)]

end Bits
