import Mathlib
import CassandraVerified.Lib.MachineInt

/-!
# The ring of 64-bit integers

Half-open ranges on the ring `Int64`, which may wrap around, are intervals of distances from their
start. The distance from `a` to `b` is the number of steps upwards from `a` to `b`.
-/

namespace Ring

/-- The number of steps from `a` up to `b`. -/
def dist (a b : Int64) : ℕ := ((b.toInt - a.toInt) % 2 ^ 64).toNat

variable {a b s t : Int64}

theorem dist_lt (a b : Int64) : dist a b < 2 ^ 64 := by
  unfold dist
  omega

theorem cast_dist (a b : Int64) : (dist a b : ℤ) = (b.toInt - a.toInt) % 2 ^ 64 := by
  unfold dist
  omega

theorem dist_of_le (h : a ≤ b) : (dist a b : ℤ) = b.toInt - a.toInt := by
  have ha := a.le_toInt
  have hb := b.toInt_lt
  rw [Int64.le_iff_toInt_le] at h
  rw [cast_dist]
  omega

theorem dist_of_lt (h : b < a) : (dist a b : ℤ) = b.toInt - a.toInt + 2 ^ 64 := by
  have ha := a.toInt_lt
  have hb := b.le_toInt
  rw [Int64.lt_iff_toInt_lt] at h
  rw [cast_dist]
  omega

theorem dist_self (a : Int64) : dist a a = 0 := by
  simp [dist]

/-- The half-open range from `a` to `b`, as it is tested with the order of the integers. -/
theorem between_iff :
    (if a ≤ b then decide (a ≤ t) && decide (t < b) else decide (a ≤ t) || decide (t < b)) = true ↔
      dist a t < dist a b := by
  rcases le_or_gt a b with hab | hab <;> rcases le_or_gt a t with hat | hat
  · have h1 := dist_of_le hab
    have h2 := dist_of_le hat
    simp only [hab, hat, if_true, decide_true, Bool.true_and, decide_eq_true_eq,
      Int64.lt_iff_toInt_lt]
    omega
  · have h1 := dist_of_le hab
    have h2 := dist_of_lt hat
    have h3 := t.le_toInt
    have h4 := b.toInt_lt
    simp only [hab, if_true, not_le.2 hat, decide_false, Bool.false_and, Bool.false_eq_true,
      false_iff]
    omega
  · have h1 := dist_of_lt hab
    have h2 := dist_of_le hat
    have h3 := t.toInt_lt
    have h4 := b.le_toInt
    simp only [not_le.2 hab, if_false, hat, decide_true, Bool.true_or, true_iff]
    omega
  · have h1 := dist_of_lt hab
    have h2 := dist_of_lt hat
    simp only [not_le.2 hab, if_false, not_le.2 hat, decide_false, Bool.false_or,
      decide_eq_true_eq, Int64.lt_iff_toInt_lt]
    omega

theorem toInt_add_ofNat (s : Int64) (p : ℕ) :
    (s + Int64.ofNat p).toInt = (s.toInt + p).bmod (2 ^ 64) := by
  rw [Int64.toInt_add, Int64.toInt_ofNat']
  exact Int.add_bmod_bmod

theorem dist_add_ofNat (s t : Int64) (p : ℕ) :
    (dist (s + Int64.ofNat p) t : ℤ) = (dist s t - p) % 2 ^ 64 := by
  rw [cast_dist, cast_dist, toInt_add_ofNat, Int.bmod_def]
  split <;> omega

theorem dist_self_add_ofNat (s : Int64) (q : ℕ) : dist s (s + Int64.ofNat q) = q % 2 ^ 64 := by
  have h := cast_dist s (s + Int64.ofNat q)
  rw [toInt_add_ofNat, Int.bmod_def] at h
  split at h <;> omega

/-- The range between two steps. -/
theorem dist_lt_dist_iff {p q : ℕ} (hpq : p ≤ q) (hq : q < 2 ^ 64) :
    dist (s + Int64.ofNat p) t < dist (s + Int64.ofNat p) (s + Int64.ofNat q) ↔
      p ≤ dist s t ∧ dist s t < q := by
  have h1 := dist_add_ofNat s t p
  have h2 := dist_add_ofNat s (s + Int64.ofNat q) p
  have h3 := dist_self_add_ofNat s q
  have h4 := dist_lt s t
  rw [h3] at h2
  omega

theorem add_ofNat_dist (s b : Int64) : s + Int64.ofNat (dist s b) = b := by
  rw [← Int64.toInt_inj, toInt_add_ofNat, cast_dist]
  have h1 := b.le_toInt
  have h2 := b.toInt_lt
  rw [Int.bmod_def]
  split <;> omega

theorem dist_injective (s : Int64) : Function.Injective (dist s) := by
  intro a b h
  rw [← add_ofNat_dist s a, ← add_ofNat_dist s b, h]

theorem dist_lt_dist_of_le_of_lt (hs : s ≤ a) (h : a < b) : dist s a < dist s b := by
  have ha := dist_of_le hs
  have hb := dist_of_le (hs.trans h.le)
  rw [Int64.lt_iff_toInt_lt] at h
  omega

theorem dist_lt_dist_of_lt_of_lt (h : a < b) (hs : b < s) : dist s a < dist s b := by
  have ha := dist_of_lt (h.trans hs)
  have hb := dist_of_lt hs
  rw [Int64.lt_iff_toInt_lt] at h
  omega

theorem dist_lt_dist_of_le_of_gt (ha : s ≤ a) (hb : b < s) : dist s a < dist s b := by
  have ha := dist_of_le ha
  have hb := dist_of_lt hb
  have htop := a.toInt_lt
  have hbottom := b.le_toInt
  omega

/-- What comes before `t` on the way from `a` does so on the way from a point before `a`. -/
theorem dist_lt_dist_of_dist_le (hat : dist s a ≤ dist s t) (h : dist a b < dist a t) :
    dist s b < dist s t := by
  have hb := cast_dist a b
  have ht := cast_dist a t
  have hsa := cast_dist s a
  have hsb := cast_dist s b
  have hst := cast_dist s t
  omega

end Ring
