import CassandraVerified.Lib.Ring
import CassandraVerified.Cluster.Token

/-!
# Splitting a range of tokens

The tokens behind the start of a range are numbered from 0. The boundaries of the pieces increase in
this numbering, so that every token is between two of them.
-/

namespace CassandraVerified.Cluster

variable {start stop token : Token} {pieces i j : ℕ}

def number (start token : Token) : ℕ := Ring.dist (start + Int64.ofNat 1) token

theorem cast_number (start token : Token) :
    (number start token : ℤ) = (token.toInt - start.toInt - 1) % 2 ^ 64 := by
  rw [number, Ring.dist_add_ofNat, Ring.cast_dist]
  omega

theorem TokenRange.contains_iff :
    (⟨start, stop⟩ : TokenRange).contains token ↔ number start token ≤ number start stop := by
  have hcases : (⟨start, stop⟩ : TokenRange).contains token ↔
      if start < stop then start < token ∧ token ≤ stop else start < token ∨ token ≤ stop := by
    -- In the full ring the minimum is the only token that is not behind the start.
    have hfull : Token.minimum < token ∨ token ≤ Token.minimum := lt_or_ge _ _
    simp only [contains, wrapsAround, fullRing]
    grind
  have htoken := cast_number start token
  have hstop := cast_number start stop
  have := And.intro start.le_toInt start.toInt_lt
  have := And.intro stop.le_toInt stop.toInt_lt
  have := And.intro token.le_toInt token.toInt_lt
  simp only [hcases, Int64.le_iff_toInt_le, Int64.lt_iff_toInt_lt]
  split <;> omega

theorem ncard_le_number (start stop : Token) :
    {token | (⟨start, stop⟩ : TokenRange).contains token}.ncard ≤ number start stop + 1 := by
  have hinj : Function.Injective (number start) := Ring.dist_injective _
  rw [← Set.ncard_image_of_injective _ hinj, ← Finset.card_range (number start stop + 1),
    ← Set.ncard_coe_finset]
  refine Set.ncard_le_ncard ?_ (Set.toFinite _)
  rintro _ ⟨token, htoken, rfl⟩
  simpa [Nat.lt_succ_iff] using TokenRange.contains_iff.mp htoken

namespace Partitioner

/-- The steps from the start of a range to the boundary in front of a piece. -/
def boundary (start stop : Token) (pieces i : ℕ) : ℕ := (number start stop + 1) * i / pieces

theorem split_eq (hone : 1 ≤ pieces) : split start stop pieces =
    (List.range (pieces + 1)).map fun i => start + Int64.ofNat (boundary start stop pieces i) := by
  obtain ⟨q, rfl⟩ := Nat.exists_eq_add_of_le' hone
  have hwidth : (if stop ≤ start then stop.toInt + 2 ^ 64 else stop.toInt) - start.toInt =
      ((number start stop + 1 : ℕ) : ℤ) := by
    have hstop := cast_number start stop
    have := And.intro start.le_toInt start.toInt_lt
    have := And.intro stop.le_toInt stop.toInt_lt
    simp only [Int64.le_iff_toInt_le]
    split <;> omega
  have hmid (i : ℕ) : Int64.ofInt (start.toInt +
      (((number start stop + 1 : ℕ) : ℤ) * i).tdiv (q + 1 : ℕ)) =
        start + Int64.ofNat (boundary start stop (q + 1) i) := by
    rw [Int64.ofInt_add, Int64.ofInt_toInt]
    rfl
  have hlast : start + Int64.ofNat (boundary start stop (q + 1) (q + 1)) = stop := by
    rw [boundary, Nat.mul_div_cancel _ q.succ_pos, Nat.add_comm, Int64.ofNat_add,
      ← Int64.add_assoc, number, Ring.add_ofNat_dist]
  have hrange : List.range (q + 1 + 1) = 0 :: (List.range' 1 q ++ [q + 1]) := by
    rw [List.range_succ, List.range_eq_range', List.range'_succ]
    rfl
  have hfirst : boundary start stop (q + 1) 0 = 0 := by simp [boundary]
  simp only [split, q.succ_ne_zero, if_false, hwidth, hmid, hrange]
  simp [hfirst, hlast]

theorem between_map_range (f : ℕ → Token) (n : ℕ) :
    TokenRange.between ((List.range (n + 1)).map f) =
      (List.range n).map fun i => ⟨f i, f (i + 1)⟩ := by
  apply List.ext_getElem <;> simp [TokenRange.between]

theorem boundary_lt (hone : 1 ≤ pieces) (hpieces : pieces ≤ number start stop + 1) (i : ℕ) :
    boundary start stop pieces i < boundary start stop pieces (i + 1) :=
  calc boundary start stop pieces i
    _ < ((number start stop + 1) * i + pieces) / pieces := by
      rw [Nat.add_div_right _ hone]
      exact Nat.lt_succ_self _
    _ ≤ boundary start stop pieces (i + 1) := Nat.div_le_div_right (by rw [mul_add_one]; omega)

/-- The piece between two boundaries. -/
theorem contains_piece (hij : i < j) (hj : j ≤ 2 ^ 64) :
    (⟨start + Int64.ofNat i, start + Int64.ofNat j⟩ : TokenRange).contains token ↔
      i ≤ number start token ∧ number start token < j := by
  have hshift (t : Token) : (number (start + Int64.ofNat i) t : ℤ) =
      (number start t - i) % 2 ^ 64 := by
    rw [number, Int64.add_assoc, Int64.add_comm (Int64.ofNat i), ← Int64.add_assoc]
    exact Ring.dist_add_ofNat _ _ _
  have htoken := hshift token
  have hstop := hshift (start + Int64.ofNat j)
  have hdist := Ring.dist_add_ofNat start (start + Int64.ofNat j) 1
  rw [Ring.dist_self_add_ofNat, ← number] at hdist
  have hlt : number start token < 2 ^ 64 := Ring.dist_lt _ _
  rw [TokenRange.contains_iff]
  omega

theorem exists_piece {f : ℕ → ℕ} {d n : ℕ} (hfirst : f 0 ≤ d) (hd : d < f n) :
    ∃ i < n, f i ≤ d ∧ d < f (i + 1) := by
  induction n with
  | zero => omega
  | succ n ih =>
    rcases lt_or_ge d (f n) with hlt | hge
    · obtain ⟨i, hi, h⟩ := ih hlt
      exact ⟨i, by omega, h⟩
    · exact ⟨n, by omega, hge, hd⟩

theorem length_split (hone : 1 ≤ pieces) : (split start stop pieces).length = pieces + 1 := by
  rw [split_eq hone, List.length_map, List.length_range]

/-- A range is split into as many pieces as were asked for, as long as it has that many tokens. -/
theorem split_partitions (start stop : Token) (pieces : Nat) (hone : 1 ≤ pieces)
    (hpieces : pieces ≤ {token | (⟨start, stop⟩ : TokenRange).contains token}.ncard) :
    (split start stop pieces).length = pieces + 1 ∧
      (⟨start, stop⟩ : TokenRange).PartitionedInto
        (TokenRange.between (split start stop pieces)) := by
  refine ⟨length_split hone, ?_⟩
  have hlt := boundary_lt hone (hpieces.trans (ncard_le_number start stop))
  have hmono := (strictMono_nat_of_lt_succ hlt).monotone
  have hle (i : ℕ) (hi : i < pieces) : boundary start stop pieces (i + 1) ≤ number start stop + 1 :=
    Nat.div_le_of_le_mul (by rw [Nat.mul_comm]; exact Nat.mul_le_mul_right _ hi)
  have hpiece (i : ℕ) (hi : i < pieces) (token : Token) := @contains_piece start token _ _ (hlt i)
    ((hle i hi).trans (Ring.dist_lt _ stop))
  rw [split_eq hone, between_map_range]
  refine ⟨?_, ?_, fun token => ?_⟩
  · intro part hpart
    obtain ⟨i, hi, rfl⟩ := List.mem_map.mp hpart
    exact ⟨_, TokenRange.contains_iff.mpr le_rfl⟩
  · rw [List.pairwise_map]
    refine List.pairwise_lt_range.imp_of_mem fun {i j} hi hj hij token h => ?_
    obtain ⟨-, hbelow⟩ := (hpiece i (List.mem_range.mp hi) token).mp h.1
    obtain ⟨habove, -⟩ := (hpiece j (List.mem_range.mp hj) token).mp h.2
    exact absurd (hmono (show i + 1 ≤ j from hij)) (by omega)
  · simp only [List.mem_map, List.mem_range, exists_exists_and_eq_and]
    rw [TokenRange.contains_iff, ← Nat.lt_succ_iff]
    constructor
    · intro htoken
      obtain ⟨i, hi, h⟩ := exists_piece (f := boundary start stop pieces) (n := pieces)
        (by simp [boundary]) (by rwa [boundary, Nat.mul_div_cancel _ hone])
      exact ⟨i, hi, (hpiece i hi token).mpr h⟩
    · rintro ⟨i, hi, h⟩
      exact ((hpiece i hi token).mp h).2.trans_le (hle i hi)

/-- The full ring in two halves. -/
theorem split_partitions_fullRing : (split 0 0 2).length = 3 ∧
    (⟨0, 0⟩ : TokenRange).PartitionedInto (TokenRange.between (split 0 0 2)) := by
  refine split_partitions 0 0 2 (by decide) ?_
  rw [← Set.ncard_pair (show (1 : Token) ≠ 2 by decide)]
  refine Set.ncard_le_ncard ?_ (Set.toFinite _)
  rintro token (rfl | rfl) <;> rfl

end Partitioner

end CassandraVerified.Cluster
