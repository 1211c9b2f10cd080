import CassandraVerified.Lib.Wire

/-!
# Lexicographic order of lists

Two lists are separated if they are equal or differ at some position, so that neither is a proper
front of the other. Their order then survives what is appended to them, and is reversed when the
order of the elements is.
-/

namespace Lexicographic

open Wire (Bytes beBytes beNat beNat_cons)

variable {o : Ordering} {α β : Type} [Ord α] [Ord β]

theorem then_of_ne (h : o ≠ .eq) (o' : Ordering) : o.then o' = o := by
  cases o <;> first | rfl | exact absurd rfl h

/-- The lists are equal, or the order of the first elements that differ is `o`. -/
def Separated (left right : List α) (o : Ordering) : Prop := (left = right ∧ o = .eq) ∨
    ∃ front l r ls rs, left = front ++ l :: ls ∧ right = front ++ r :: rs ∧ compare l r = o ∧ o ≠ .eq

variable {left right : List α}

theorem Separated.cons [Std.ReflOrd α] (x : α) (h : Separated left right o) :
    Separated (x :: left) (x :: right) o := by
  rcases h with ⟨rfl, rfl⟩ | ⟨front, l, r, ls, rs, rfl, rfl, hcmp, hne⟩
  · exact .inl ⟨rfl, rfl⟩
  · exact .inr ⟨x :: front, l, r, ls, rs, rfl, rfl, hcmp, hne⟩

theorem Separated.append_left (front : List α) (h : Separated left right o) :
    Separated (front ++ left) (front ++ right) o := by
  rcases h with ⟨rfl, rfl⟩ | ⟨front', l, r, ls, rs, rfl, rfl, hcmp, hne⟩
  · exact .inl ⟨rfl, rfl⟩
  · exact .inr ⟨front ++ front', l, r, ls, rs, by simp, by simp, hcmp, hne⟩

theorem separated_of_compare_ne {l r : α} {ls rs : List α} (h : compare l r ≠ .eq) :
    Separated (l :: ls) (r :: rs) (compare l r) :=
  .inr ⟨[], l, r, ls, rs, rfl, rfl, rfl, h⟩

theorem Separated.symm [Std.OrientedOrd α] (h : Separated left right o) :
    Separated right left o.swap := by
  rcases h with ⟨rfl, rfl⟩ | ⟨front, l, r, ls, rs, rfl, rfl, rfl, hne⟩
  · exact .inl ⟨rfl, rfl⟩
  · exact .inr ⟨front, r, l, rs, ls, rfl, rfl, Std.OrientedOrd.eq_swap, by simpa using hne⟩

theorem separated_refl (l : List α) : Separated l l .eq := .inl ⟨rfl, rfl⟩

/-- What stands behind separated lists matters only if they are equal. -/
theorem Separated.append {left right left' right' : List α} {o' : Ordering}
    (h : Separated left right o) (h' : Separated left' right' o') :
    Separated (left ++ left') (right ++ right') (o.then o') := by
  rcases h with ⟨rfl, rfl⟩ | ⟨front, l, r, ls, rs, rfl, rfl, hcmp, hne⟩
  · exact h'.append_left left
  · rw [then_of_ne hne]
    exact .inr ⟨front, l, r, ls ++ left', rs ++ right', by simp, by simp, hcmp, hne⟩

theorem Separated.map_swap (h : Separated left right o) {f : α → β}
    (hf : ∀ x y, compare (f x) (f y) = (compare x y).swap) :
    Separated (left.map f) (right.map f) o.swap := by
  rcases h with ⟨rfl, rfl⟩ | ⟨front, l, r, ls, rs, rfl, rfl, hcmp, hne⟩
  · exact separated_refl _
  · refine .inr ⟨front.map f, f l, f r, ls.map f, rs.map f, by simp, by simp, ?_, ?_⟩
    · rw [hf, hcmp]
    · cases o <;> simp_all

theorem compare_append_left [Std.ReflOrd α] (front left right : List α) :
    compare (front ++ left) (front ++ right) = compare left right := by
  induction front with
  | nil => rfl
  | cons x front ih =>
    rw [List.cons_append, List.cons_append, List.compare_cons_cons, Std.ReflOrd.compare_self]
    exact ih

theorem Separated.compare_eq [Std.ReflOrd α] (h : Separated left right o) :
    compare left right = o := by
  rcases h with ⟨rfl, rfl⟩ | ⟨front, l, r, ls, rs, rfl, rfl, hcmp, hne⟩
  · exact Std.ReflOrd.compare_self
  · rw [compare_append_left, List.compare_cons_cons, hcmp, then_of_ne hne]

theorem Separated.eq_of_isPrefix [Std.ReflOrd α] (h : Separated left right o)
    (happend : left <+: right) : left = right := by
  rcases h with ⟨rfl, -⟩ | ⟨front, l, r, ls, rs, rfl, rfl, hcmp, hne⟩
  · rfl
  · rw [List.prefix_append_right_inj, List.cons_prefix_cons] at happend
    obtain ⟨rfl, -⟩ := happend
    exact absurd (hcmp.symm.trans Std.ReflOrd.compare_self) hne

theorem separated_of_length_eq [Std.LawfulEqOrd α] (h : left.length = right.length) :
    Separated left right (compare left right) := by
  induction left generalizing right with
  | nil =>
    obtain rfl : right = [] := List.length_eq_zero_iff.mp h.symm
    exact separated_refl []
  | cons l left ih =>
    cases right with
    | nil => simp at h
    | cons r right =>
      rw [List.compare_cons_cons]
      by_cases hcmp : compare l r = .eq
      · obtain rfl := Std.compare_eq_iff_eq.mp hcmp
        rw [hcmp]
        exact (ih (by simpa using h)).cons l
      · rw [then_of_ne hcmp]
        exact separated_of_compare_ne hcmp

theorem compare_congr [LE α] [LT α] [Std.LawfulOrderOrd α] [Std.LawfulOrderLT α] [LE β] [LT β]
    [Std.LawfulOrderOrd β] [Std.LawfulOrderLT β] {x y : α} {x' y' : β} (hlt : x < y ↔ x' < y')
    (hgt : y < x ↔ y' < x') : compare x y = compare x' y' := by
  rw [← Std.compare_eq_lt, ← Std.compare_eq_lt] at hlt
  rw [← Std.compare_eq_gt, ← Std.compare_eq_gt] at hgt
  cases h : compare x y <;> cases h' : compare x' y' <;> simp_all

theorem compare_uint8 (a b : UInt8) : compare a b = compare a.toNat b.toNat :=
  compare_congr UInt8.lt_iff_toNat_lt UInt8.lt_iff_toNat_lt

/-- Numbers are compared by a digit and then by what is below it. -/
theorem compare_digit {b q q' r r' : ℕ} (hr : r < b) (hr' : r' < b) :
    compare (b * q + r) (b * q' + r') = (compare q q').then (compare r r') := by
  rcases lt_trichotomy q q' with h | rfl | h
  · have hlt : b * q + r < b * q' + r' := by nlinarith
    rw [Std.compare_eq_lt.mpr h, Std.compare_eq_lt.mpr hlt]
    rfl
  · have hcmp : compare (b * q + r) (b * q + r') = compare r r' :=
      compare_congr (by omega) (by omega)
    rw [hcmp, Std.compare_eq_iff_eq.mpr rfl]
    rfl
  · have hlt : b * q' + r' < b * q + r := by nlinarith
    rw [Std.compare_eq_gt.mpr h, Std.compare_eq_gt.mpr hlt]
    rfl

theorem compare_beBytes (w m n : ℕ) :
    compare (beBytes w m) (beBytes w n) = compare (m % 256 ^ w) (n % 256 ^ w) := by
  induction w with
  | zero => simp [beBytes, Nat.mod_one]
  | succ w ih =>
    have hsplit (k : ℕ) : k % 256 ^ (w + 1) = 256 ^ w * (k / 256 ^ w % 256) + k % 256 ^ w := by
      rw [pow_succ, Nat.mod_mul, Nat.add_comm]
    have hpos : 0 < 256 ^ w := Nat.pow_pos (by norm_num)
    rw [beBytes, beBytes, List.compare_cons_cons, ih, hsplit m, hsplit n,
      compare_digit (Nat.mod_lt _ hpos) (Nat.mod_lt _ hpos), compare_uint8]
    simp

/-- Big-endian numbers of one width are ordered as the numbers. -/
theorem compare_beBytes_of_lt {w m n : ℕ} (hm : m < 256 ^ w) (hn : n < 256 ^ w) :
    compare (beBytes w m) (beBytes w n) = compare m n := by
  rw [compare_beBytes, Nat.mod_eq_of_lt hm, Nat.mod_eq_of_lt hn]

theorem compare_beNat {left right : Bytes} (h : left.length = right.length) :
    compare (beNat left) (beNat right) = compare left right := by
  induction left generalizing right with
  | nil =>
    obtain rfl : right = [] := List.length_eq_zero_iff.mp h.symm
    rfl
  | cons l left ih =>
    cases right with
    | nil => simp at h
    | cons r right =>
      rw [List.length_cons, List.length_cons, Nat.add_right_cancel_iff] at h
      rw [beNat_cons, beNat_cons, ← h, compare_digit (Wire.beNat_lt left) (h ▸ Wire.beNat_lt right),
        ih h, List.compare_cons_cons, compare_uint8]

end Lexicographic
