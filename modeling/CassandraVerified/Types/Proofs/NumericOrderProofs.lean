import CassandraVerified.Lib.Lexicographic
import CassandraVerified.Types.Comparator

/-!
# When decimals are ordered as numbers

Varints of one sign are told apart by their length, since a longer one that does not repeat its sign
is farther from zero. Decimals are compared by their scale first.
-/

namespace CassandraVerified.Types

open Wire (Bytes beNat beNat_cons beNat_lt)
open Lexicographic

variable {left right : Bytes}

/-- The first byte counts with its sign. -/
theorem varintValue_cons (b : UInt8) (rest : Bytes) : varintValue (b :: rest) =
    256 ^ rest.length * ((b.toNat : Int) - if 128 ≤ b.toNat then 256 else 0) + beNat rest := by
  have hneg : isNegative (b :: rest) = true ↔ 128 ≤ b.toNat := by
    simp [isNegative, UInt8.le_iff_toNat_le]
  simp only [varintValue, hneg, beNat_cons, List.length_cons, pow_succ]
  split <;> push_cast <;> ring

theorem varintValue_neg_iff : varintValue left < 0 ↔ isNegative left = true := by
  have hlt : (beNat left : Int) < 256 ^ left.length := by exact_mod_cast beNat_lt left
  unfold varintValue
  split <;> simp_all

theorem varintValue_bounds (b : UInt8) (rest : Bytes) :
    -(128 * 256 ^ rest.length) ≤ varintValue (b :: rest) ∧
      varintValue (b :: rest) < 128 * 256 ^ rest.length := by
  have hrest : (beNat rest : Int) < 256 ^ rest.length := by exact_mod_cast beNat_lt rest
  have hb := b.toNat_lt
  rw [varintValue_cons]
  split <;> constructor <;> nlinarith

/-- A number that does not repeat its sign is outside the range of the shorter ones. -/
theorem varintValue_far {b c : UInt8} {rest : Bytes} (h : isMinimal (b :: c :: rest) = true) :
    varintValue (b :: c :: rest) < -(128 * 256 ^ rest.length) ∨
      128 * 256 ^ rest.length ≤ varintValue (b :: c :: rest) := by
  have hrest : (beNat rest : Int) < 256 ^ rest.length := by exact_mod_cast beNat_lt rest
  have hb := b.toNat_lt
  have hc := c.toNat_lt
  have hmin : (b.toNat = 0 → 128 ≤ c.toNat) ∧ (b.toNat = 255 → c.toNat < 128) := by
    simpa [isMinimal, ← UInt8.toNat_inj, UInt8.lt_iff_toNat_lt, UInt8.le_iff_toNat_le,
      imp_iff_not_or] using h
  rw [varintValue_cons, beNat_cons, List.length_cons, pow_succ]
  push_cast
  split
  · have hlow : 256 * ((b.toNat : Int) - 256) + c.toNat ≤ -129 := by omega
    left
    nlinarith
  · have hhigh : 128 ≤ 256 * (b.toNat : Int) + c.toNat := by omega
    right
    nlinarith

/-- A longer number is farther from zero, on the side of its sign. -/
theorem varintValue_of_length_lt (h : left.length < right.length) (hl : isMinimal left = true)
    (hr : isMinimal right = true) :
    (isNegative right = true → varintValue right < varintValue left) ∧
      (isNegative right = false → varintValue left < varintValue right) := by
  match left, right with
  | b :: rest, b' :: c' :: rest' =>
    simp only [List.length_cons] at h
    have hpow : (256 : Int) ^ rest.length ≤ 256 ^ rest'.length :=
      pow_le_pow_right₀ (by norm_num) (by omega)
    have hbounds := varintValue_bounds b rest
    have hsign := @varintValue_neg_iff (b' :: c' :: rest')
    have hpos : (0 : Int) < 256 ^ rest'.length := by positivity
    rcases varintValue_far hr with hfar | hfar
    · refine ⟨fun _ => by linarith, fun hneg => ?_⟩
      have hlt : varintValue (b' :: c' :: rest') < 0 := by linarith
      simp [hsign.mp hlt] at hneg
    · refine ⟨fun hneg => ?_, fun _ => by linarith⟩
      have hlt := hsign.mpr hneg
      linarith

theorem compare_varintValue_of_sign (hsign : isNegative left = isNegative right)
    (hl : isMinimal left = true) (hr : isMinimal right = true) :
    compare (varintValue left) (varintValue right) =
      (if isNegative right then (compare left.length right.length).swap
        else compare left.length right.length).then (cmpBytes left right) := by
  rcases lt_trichotomy left.length right.length with h | h | h
  · obtain ⟨hneg, hpos⟩ := varintValue_of_length_lt h hl hr
    rw [Std.compare_eq_lt.mpr h]
    cases hn : isNegative right with
    | true => exact Std.compare_eq_gt.mpr (hneg hn)
    | false => exact Std.compare_eq_lt.mpr (hpos hn)
  · have hvalue : compare (varintValue left) (varintValue right) = cmpBytes left right := by
      rw [cmpBytes, ← compare_beNat h, varintValue, varintValue, hsign, h]
      exact compare_congr (by split <;> omega) (by split <;> omega)
    rw [hvalue, Std.compare_eq_iff_eq.mpr h]
    split <;> rfl
  · obtain ⟨hneg, hpos⟩ := varintValue_of_length_lt h hr hl
    rw [Std.compare_eq_gt.mpr h, ← hsign]
    cases hn : isNegative left with
    | true => exact Std.compare_eq_lt.mpr (hneg hn)
    | false => exact Std.compare_eq_gt.mpr (hpos hn)

theorem cmpVarint_eq_compare (hl : isMinimal left = true) (hr : isMinimal right = true) :
    cmpVarint left right = compare (varintValue left) (varintValue right) := by
  have hne (data : Bytes) (h : isMinimal data = true) : data ≠ [] := by
    rintro rfl
    cases h
  have hsignL := @varintValue_neg_iff left
  have hsignR := @varintValue_neg_iff right
  rw [cmpVarint, if_neg fun h => hne left hl h.1, if_neg (hne left hl), if_neg (hne right hr)]
  cases hnl : isNegative left <;> cases hnr : isNegative right <;>
    simp [hnl, hnr] at hsignL hsignR ⊢
  · rw [compare_varintValue_of_sign (hnl.trans hnr.symm) hl hr, if_neg (by simp [hnr])]
  · exact (Std.compare_eq_gt.mpr (by omega)).symm
  · exact (Std.compare_eq_lt.mpr (by omega)).symm
  · rw [compare_varintValue_of_sign (hnl.trans hnr.symm) hl hr, if_pos hnr]

/-- Varints are ordered as the integers. Decimals are ordered as the numbers iff their scales are
equal or the number with the smaller scale is the smaller one. -/
theorem numericallyOrdered_iff (unicode : CharClass) {a b l r : Bytes}
    (ha : isMinimal (a.drop 4) = true) (hb : isMinimal (b.drop 4) = true)
    (hl : isMinimal l = true) (hr : isMinimal r = true) :
    NumericallyOrdered unicode a b l r ↔ decimalScale a = decimalScale b ∨
      (decimalScale a < decimalScale b ∧ decimalValue a < decimalValue b) ∨
        (decimalScale b < decimalScale a ∧ decimalValue b < decimalValue a) := by
  have hlen {data : Bytes} (h : isMinimal (data.drop 4) = true) : ¬ data.length < 4 := by
    intro hlt
    rw [List.drop_eq_nil_of_le hlt.le] at h
    cases h
  have hdecimal : compareBytes unicode .decimal a b = some ((compare (decimalScale a)
      (decimalScale b)).then (compare (varintValue (a.drop 4)) (varintValue (b.drop 4)))) := by
    rw [← cmpVarint_eq_compare ha hb]
    exact congrArg some (if_neg (not_or.mpr ⟨hlen ha, hlen hb⟩))
  have hvarint : compareBytes unicode .varint l r =
      some (compare (varintValue l) (varintValue r)) :=
    congrArg some (cmpVarint_eq_compare hl hr)
  simp only [NumericallyOrdered, hdecimal, hvarint, Option.some.injEq, and_true]
  rcases lt_trichotomy (decimalScale a).toInt (decimalScale b).toInt with h | h | h
  · have hlt : decimalScale a < decimalScale b := Int32.lt_iff_toInt_lt.mpr h
    have hne : decimalScale a ≠ decimalScale b := fun heq => h.ne (congrArg Int32.toInt heq)
    rw [Std.compare_eq_lt.mpr hlt, then_of_ne (by decide), eq_comm, cmp_eq_lt_iff]
    simp [hlt, hne, Int32.lt_iff_toInt_lt, h.le]
  · have heq : decimalScale a = decimalScale b := Int32.toInt_inj.mp h
    have hpos : (0 : ℚ) < 10 ^ (-(decimalScale b).toInt) := by positivity
    rw [heq, Std.compare_eq_iff_eq.mpr rfl, Ordering.then, decimalValue, decimalValue, heq,
      cmp_mul_pos_right hpos, Int.cast_strictMono.cmp_map_eq, cmp_eq_compare]
    simp
  · have hlt : decimalScale b < decimalScale a := Int32.lt_iff_toInt_lt.mpr h
    have hne : decimalScale a ≠ decimalScale b := fun heq => h.ne (congrArg Int32.toInt heq.symm)
    rw [Std.compare_eq_gt.mpr hlt, then_of_ne (by decide), eq_comm, cmp_eq_gt_iff]
    simp [hlt, hne, Int32.lt_iff_toInt_lt, h.le]

/-- 1.0 and 0.2, and two varints of different lengths. -/
theorem numericallyOrdered_oneScale : NumericallyOrdered .ascii [0, 0, 0, 1, 10] [0, 0, 0, 1, 2]
    [0x80] [0, 0x80] :=
  (numericallyOrdered_iff .ascii rfl rfl rfl rfl).mpr (.inl rfl)

/-- 1.0 comes behind 2, since its scale is larger. -/
theorem not_numericallyOrdered_twoScales : ¬ NumericallyOrdered .ascii [0, 0, 0, 1, 10]
    [0, 0, 0, 0, 2] [0] [1] := by
  rintro ⟨hdecimal, -⟩
  have hone : decimalValue [0, 0, 0, 1, 10] = 10 * 10 ^ (-1 : ℤ) := rfl
  have htwo : decimalValue [0, 0, 0, 0, 2] = 2 * 10 ^ (0 : ℤ) := rfl
  have hvalue : cmp (decimalValue [0, 0, 0, 1, 10]) (decimalValue [0, 0, 0, 0, 2]) = .lt := by
    rw [cmp_eq_lt_iff, hone, htwo]
    norm_num
  rw [hvalue] at hdecimal
  cases hdecimal

end CassandraVerified.Types
