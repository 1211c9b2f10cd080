import CassandraVerified.Repair.Merkle

/-!
# Merkle trees find differences

In distances from the start of the range, leaves are consecutive intervals. The single scan over the
partitions by token meets the leaves in order if the range does not wrap around; if it does, the
partitions behind the wrap come first and those before it are left out.
-/

namespace CassandraVerified.Repair

open List
open Ring

variable {H : Type} {range : Token × Token} {depth i : Nat} {t : Token}

theorem tokenInRange_iff (t : Token) (range : Token × Token) :
    tokenInRange t range = true ↔ dist range.1 t < dist range.1 range.2 :=
  between_iff

theorem totalWidth_eq (hne : range.1 ≠ range.2)
    (hwidth : range.2 ≤ range.1 ∨ range.2.toInt - range.1.toInt < 2 ^ 63) :
    totalWidth range = dist range.1 range.2 := by
  have h1 := range.1.le_toInt
  have h2 := range.1.toInt_lt
  have h3 := range.2.le_toInt
  have h4 := range.2.toInt_lt
  unfold totalWidth
  split_ifs with hlt
  · have hdist := dist_of_le hlt.le
    rw [gt_iff_lt, Int64.lt_iff_toInt_lt] at hlt
    have hnarrow : range.2.toInt - range.1.toInt < 2 ^ 63 := by
      rcases hwidth with hle | hnarrow
      · rw [Int64.le_iff_toInt_le] at hle
        omega
      · exact hnarrow
    rw [Int64.toInt_sub, Int.bmod_eq_of_le (by omega) (by omega)]
    omega
  · have hdist := dist_of_lt (lt_of_le_of_ne (not_lt.1 hlt) (Ne.symm hne))
    omega

theorem mul_leafWidth_le (range : Token × Token) (hi : i < 2 ^ depth) :
    (i + 1) * leafWidth range depth ≤ totalWidth range :=
  calc (i + 1) * leafWidth range depth
      ≤ 2 ^ depth * leafWidth range depth := Nat.mul_le_mul_right _ hi
    _ ≤ totalWidth range := Nat.mul_div_le _ _

/-- Where a leaf ends, in distances from the start. -/
def leafEnd (range : Token × Token) (depth i : Nat) : Nat :=
  if i = 2 ^ depth - 1 then totalWidth range else (i + 1) * leafWidth range depth

theorem leafEnd_le (range : Token × Token) {j : Nat} (hij : i < j) (hj : j < 2 ^ depth) :
    leafEnd range depth i ≤ j * leafWidth range depth := by
  rw [leafEnd, if_neg (by omega)]
  exact Nat.mul_le_mul_right _ hij

theorem inLeaf_iff (hne : range.1 ≠ range.2)
    (hwidth : range.2 ≤ range.1 ∨ range.2.toInt - range.1.toInt < 2 ^ 63) (hi : i < 2 ^ depth) :
    tokenInRange t (leafRange range depth i) = true ↔
      i * leafWidth range depth ≤ dist range.1 t ∧ dist range.1 t < leafEnd range depth i := by
  have htotal := totalWidth_eq hne hwidth
  have hlt := dist_lt range.1 range.2
  have hbound := mul_leafWidth_le range hi
  have hstep : i * leafWidth range depth ≤ (i + 1) * leafWidth range depth :=
    Nat.mul_le_mul_right _ (Nat.le_succ i)
  have hend : (leafRange range depth i).2 = range.1 + Int64.ofNat (leafEnd range depth i) := by
    unfold leafRange leafEnd
    split_ifs with hlast
    · rw [htotal, add_ofNat_dist]
    · rfl
  have hend' : (i + 1) * leafWidth range depth ≤ leafEnd range depth i ∧
      leafEnd range depth i ≤ totalWidth range := by
    unfold leafEnd
    split_ifs <;> omega
  rw [tokenInRange_iff, hend]
  exact dist_lt_dist_iff (by omega) (by omega)

theorem leavesCover_of_narrow
    (hwidth : range.2 ≤ range.1 ∨ range.2.toInt - range.1.toInt < 2 ^ 63) :
    LeavesCover range depth := by
  intro t ht
  have hne : range.1 ≠ range.2 := by
    intro heq
    rw [tokenInRange_iff, heq, dist_self] at ht
    omega
  have htotal := totalWidth_eq hne hwidth
  rw [tokenInRange_iff, ← htotal] at ht
  have hpos : 0 < 2 ^ depth := Nat.two_pow_pos depth
  set d := dist range.1 t with hd
  -- the leaf whose interval has the distance
  obtain ⟨i, hi, hlo, hhi⟩ : ∃ i < 2 ^ depth, i * leafWidth range depth ≤ d ∧
      d < leafEnd range depth i := by
    by_cases hlast : (2 ^ depth - 1) * leafWidth range depth ≤ d
    · exact ⟨2 ^ depth - 1, by omega, hlast, by rw [leafEnd, if_pos rfl]; exact ht⟩
    · have hwpos : 0 < leafWidth range depth := by
        by_contra hzero
        rw [Nat.eq_zero_of_not_pos hzero, Nat.mul_zero] at hlast
        omega
      have hquot : d / leafWidth range depth < 2 ^ depth - 1 :=
        (Nat.div_lt_iff_lt_mul hwpos).2 (not_le.1 hlast)
      refine ⟨d / leafWidth range depth, by omega, Nat.div_mul_le_self _ _, ?_⟩
      rw [leafEnd, if_neg hquot.ne]
      rw [Nat.succ_mul]
      exact Nat.lt_div_mul_add hwpos
  refine ⟨i, ⟨hi, (inLeaf_iff hne hwidth hi).2 ⟨hlo, hhi⟩⟩, ?_⟩
  rintro j ⟨hj, hin⟩
  obtain ⟨hlo', hhi'⟩ := (inLeaf_iff hne hwidth hj).1 hin
  rcases lt_trichotomy i j with hij | hij | hij
  · have hle := leafEnd_le range hij hj
    omega
  · exact hij.symm
  · have hle := leafEnd_le range hij hi
    omega

theorem leavesCover_zero (range : Token × Token) : LeavesCover range 0 := by
  intro t ht
  have hleaf : leafRange range 0 0 = range := by
    have hzero : range.1 + Int64.ofNat (0 * leafWidth range 0) = range.1 := by simp
    rw [leafRange, hzero]
    rfl
  refine ⟨0, ⟨Nat.one_pos, by rwa [hleaf]⟩, ?_⟩
  rintro j ⟨hj, -⟩
  exact Nat.lt_one_iff.1 hj

theorem leavesCover_one_full : LeavesCover (Int64.minValue, Int64.maxValue) 1 := by
  intro t ht
  have hfirst : leafRange (Int64.minValue, Int64.maxValue) 1 0 =
      (Int64.minValue, Int64.maxValue) := by decide
  have hsecond : leafRange (Int64.minValue, Int64.maxValue) 1 1 =
      (Int64.maxValue, Int64.maxValue) := by decide
  refine ⟨0, ⟨by decide, by rwa [hfirst]⟩, ?_⟩
  rintro j ⟨hj, hin⟩
  rcases Nat.lt_succ_iff_lt_or_eq.1 hj with hzero | rfl
  · exact Nat.lt_one_iff.1 hzero
  · rw [hsecond, tokenInRange_iff, dist_self] at hin
    omega

/-- A quotient of a number just below a multiple `m * n` is just below `m`. -/
theorem sub_div_eq {m n k : Nat} (hn : 2 ≤ n) (hk : 1 ≤ k) (hle : k ≤ m * n) :
    ∃ c, (m * n - k) / n + c = m ∧ 1 ≤ c ∧ c ≤ k ∧ (c = k → k = 1) := by
  set q := (m * n - k) / n with hq
  have hlo : n * q ≤ m * n - k := Nat.mul_div_le _ _
  have hhi : m * n - k < n * q + n := Nat.lt_mul_div_succ _ (by omega)
  have hqm : q ≤ m := by
    by_contra hlt
    have hmul : n * (m + 1) ≤ n * q := Nat.mul_le_mul_left n (not_le.1 hlt)
    rw [Nat.mul_succ, Nat.mul_comm n m] at hmul
    omega
  clear_value q
  obtain ⟨c, rfl⟩ := Nat.exists_eq_add_of_le hqm
  have hsplit : (q + c) * n = n * q + n * c := by rw [Nat.mul_comm, Nat.mul_add]
  rw [hsplit] at hlo hhi hle
  have hbounds : k ≤ n * c ∧ n * c < k + n := by omega
  refine ⟨c, rfl, ?_, ?_, ?_⟩
  · rcases Nat.eq_zero_or_pos c with rfl | hpos
    · omega
    · exact hpos
  · by_contra hgt
    have hmul : n * (k + 1) ≤ n * c := Nat.mul_le_mul_left n (not_le.1 hgt)
    have hge : 1 * k ≤ n * k := Nat.mul_le_mul_right k (by omega)
    rw [Nat.mul_succ] at hmul
    omega
  · rintro rfl
    by_contra hne
    obtain ⟨j, rfl⟩ := Nat.exists_eq_add_of_le hk
    have hge : 2 * j ≤ n * j := Nat.mul_le_mul_right j hn
    rw [Nat.mul_add] at hbounds
    omega

/-- The width of the leaves when the difference of the bounds overflows. -/
theorem leafWidth_of_wide (hlt : range.1 < range.2)
    (hwide : 2 ^ 63 ≤ range.2.toInt - range.1.toInt) (hdepth : depth ≤ 30) (hzero : depth ≠ 0) :
    ∃ m c, leafWidth range depth + c = 2 ^ 64 * m ∧ 1 ≤ m ∧ 1 ≤ c ∧
      c + dist range.1 range.2 ≤ 2 ^ 64 ∧
      (c + dist range.1 range.2 = 2 ^ 64 → dist range.1 range.2 = 2 ^ 64 - 1) := by
  have h1 := range.1.le_toInt
  have h2 := range.2.toInt_lt
  have hdist := dist_of_le hlt.le
  have hdlt := dist_lt range.1 range.2
  have htotal : totalWidth range = 2 ^ 128 - (2 ^ 64 - dist range.1 range.2) := by
    rw [totalWidth, if_pos hlt, Int64.toInt_sub, Int.bmod_def]
    split <;> omega
  have hpow : 2 ^ 64 * 2 ^ (64 - depth) * 2 ^ depth = 2 ^ 128 := by
    rw [Nat.mul_assoc, ← Nat.pow_add, ← Nat.pow_add]
    congr 1
    omega
  have htwo : 2 ≤ 2 ^ depth := Nat.le_self_pow hzero 2
  obtain ⟨c, hc, hpos, hle, heq⟩ := sub_div_eq (m := 2 ^ 64 * 2 ^ (64 - depth)) htwo
    (show 1 ≤ 2 ^ 64 - dist range.1 range.2 by omega) (by rw [hpow]; omega)
  refine ⟨2 ^ (64 - depth), c, ?_, Nat.one_le_two_pow, hpos, by omega, by omega⟩
  rw [leafWidth, htotal, ← hpow, hc]

/-- Bounds whose difference overflows make the leaves step backwards: the first two leaves share the
start of the range. -/
theorem not_leavesCover_of_wide (hdepth : depth ≤ 30) (hfits : ¬ WidthFits range depth) :
    ¬ LeavesCover range depth := by
  simp only [WidthFits, not_or, not_le, not_lt] at hfits
  obtain ⟨hlt, hwide, hzero, hone⟩ := hfits
  obtain ⟨m, c, hwidth, hm, hc, hle, hfull⟩ := leafWidth_of_wide hlt hwide hdepth hzero
  have hdist := dist_of_le hlt.le
  have htwo : 2 ≤ 2 ^ depth := Nat.le_self_pow hzero 2
  have hself := dist_self range.1
  set lw := leafWidth range depth with hlw
  have hstart : tokenInRange range.1 range = true := by
    rw [tokenInRange_iff, hself]
    omega
  have hfirst : tokenInRange range.1 (leafRange range depth 0) = true := by
    have hend := dist_self_add_ofNat range.1 lw
    rw [tokenInRange_iff, leafRange, if_neg (by omega)]
    simp only [Nat.zero_mul, Nat.zero_add, Nat.one_mul, ← hlw]
    have hzero' : range.1 + Int64.ofNat 0 = range.1 := by simp
    rw [hzero', hself, hend]
    omega
  have hsecond : tokenInRange range.1 (leafRange range depth 1) = true := by
    have hback := dist_add_ofNat range.1 range.1 lw
    rw [tokenInRange_iff, leafRange]
    simp only [Nat.one_mul, ← hlw]
    split_ifs with hlast
    · have hend := dist_add_ofNat range.1 range.2 lw
      have hnotfull : dist range.1 range.2 ≠ 2 ^ 64 - 1 := by
        intro heq
        have h1 := range.1.le_toInt
        have h2 := range.2.toInt_lt
        have hdepth' : depth = 1 := Nat.pow_right_injective (le_refl 2) (by simp; omega)
        refine hone ⟨hdepth', Prod.ext (Int64.toInt_inj.1 ?_) (Int64.toInt_inj.1 ?_)⟩
        · rw [Int64.toInt_minValue]
          omega
        · rw [Int64.toInt_maxValue]
          omega
      omega
    · have hend := dist_add_ofNat range.1 (range.1 + Int64.ofNat ((1 + 1) * lw)) lw
      have htwice := dist_self_add_ofNat range.1 ((1 + 1) * lw)
      omega
  intro hcover
  obtain ⟨i, -, hunique⟩ := hcover range.1 hstart
  have h0 := hunique 0 ⟨by omega, hfirst⟩
  have h1 := hunique 1 ⟨by omega, hsecond⟩
  omega

theorem leavesCover_iff (hdepth : depth ≤ 30) :
    LeavesCover range depth ↔ WidthFits range depth := by
  constructor
  · intro hcover
    by_contra hfits
    exact not_leavesCover_of_wide hdepth hfits hcover
  · rintro (hwrap | hnarrow | rfl | ⟨rfl, rfl⟩)
    · exact leavesCover_of_narrow (.inl hwrap)
    · exact leavesCover_of_narrow (.inr hnarrow)
    · exact leavesCover_zero range
    · exact leavesCover_one_full

variable {hashes left right : List (Token × H)}

theorem mem_sortedInRange {p : Token × H} :
    p ∈ sortedInRange hashes range ↔ p ∈ hashes ∧ tokenInRange p.1 range = true := by
  rw [sortedInRange, mem_filter, mem_insertionSort]

theorem pairwise_sortedInRange (range : Token × Token) (htokens : (hashes.map Prod.fst).Nodup) :
    (sortedInRange hashes range).Pairwise fun p q => p.1 < q.1 := by
  refine List.Pairwise.filter _ ?_
  have hsorted := pairwise_insertionSort (fun p q : Token × H => p.1 ≤ q.1) hashes
  have hperm := perm_insertionSort (fun p q : Token × H => p.1 ≤ q.1) hashes
  have hnodup := (hperm.map Prod.fst).nodup_iff.2 htokens
  rw [List.Nodup, pairwise_map] at hnodup
  exact hsorted.imp₂ (fun p q hle hne => lt_of_le_of_ne hle hne) hnodup

theorem nodup_of_pairwise_fst {ps : List (Token × H)} (h : ps.Pairwise fun p q => p.1 < q.1) :
    ps.Nodup := by
  refine h.imp ?_
  rintro p q hlt rfl
  exact lt_irrefl _ hlt

theorem exists_leafOf (hcover : LeavesCover range depth) :
    ∃ leafOf : Token → Nat, ∀ t, tokenInRange t range = true → leafOf t < 2 ^ depth ∧
      ∀ i < 2 ^ depth, (tokenInRange t (leafRange range depth i) = true ↔ leafOf t = i) := by
  choose! leafOf hleaf using hcover
  refine ⟨leafOf, fun t ht => ?_⟩
  obtain ⟨⟨hlt, hin⟩, hunique⟩ := hleaf t ht
  refine ⟨hlt, fun i hi => ⟨fun h => (hunique i ⟨hi, h⟩).symm, ?_⟩⟩
  rintro rfl
  exact hin

section

variable (htokens : (hashes.map Prod.fst).Nodup)

include htokens

theorem assign_eq (hcover : LeavesCover range depth) (horder : InTokenOrder range depth hashes) :
    assign range depth (sortedInRange hashes range) =
      (List.range (2 ^ depth)).map fun i => leafPartitions range depth i hashes := by
  obtain ⟨leafOf, hleaf⟩ := exists_leafOf hcover
  refine Buckets.scan_eq_map_filter (f := fun p => leafOf p.1) pairwise_lt_range ?_ ?_
  · intro p hp
    obtain ⟨hlt, hiff⟩ := hleaf p.1 (mem_sortedInRange.1 hp).2
    exact ⟨mem_range.2 hlt, fun i hi => hiff i (mem_range.1 hi)⟩
  · refine List.Pairwise.imp_of_mem ?_ (pairwise_sortedInRange range htokens)
    intro p q hp hq hlt
    obtain ⟨hp, hpin⟩ := mem_sortedInRange.1 hp
    obtain ⟨hq, hqin⟩ := mem_sortedInRange.1 hq
    obtain ⟨hpl, hpiff⟩ := hleaf p.1 hpin
    obtain ⟨hql, hqiff⟩ := hleaf q.1 hqin
    exact horder p hp q hq hpin hqin hlt _ hpl _ hql ((hpiff _ hpl).2 rfl) ((hqiff _ hql).2 rfl)

theorem getElem?_assign (hcover : LeavesCover range depth)
    (horder : InTokenOrder range depth hashes) {slice : List (Token × H)} :
    (assign range depth (sortedInRange hashes range))[i]? = some slice ↔
      i < 2 ^ depth ∧ leafPartitions range depth i hashes = slice := by
  rw [assign_eq htokens hcover horder, List.getElem?_map, Option.map_eq_some_iff]
  constructor
  · rintro ⟨j, hj, rfl⟩
    obtain ⟨hlt, rfl⟩ := List.getElem?_eq_some_iff.1 hj
    rw [getElem_range]
    exact ⟨by simpa using hlt, rfl⟩
  · rintro ⟨hlt, rfl⟩
    exact ⟨i, List.getElem?_range hlt, rfl⟩

theorem flatten_assign (hassigned : AssignedOnce range depth hashes) :
    (assign range depth (sortedInRange hashes range)).flatten = sortedInRange hashes range := by
  obtain ⟨rest, hrest⟩ : (assign range depth (sortedInRange hashes range)).flatten <+:
      sortedInRange hashes range := Buckets.front_flatten_scan _ _
  have hnodup := nodup_of_pairwise_fst (pairwise_sortedInRange range htokens)
  suffices hnil : rest = [] by rw [hnil, append_nil] at hrest; exact hrest
  refine eq_nil_iff_forall_not_mem.2 fun p hp => ?_
  have hmem : p ∈ sortedInRange hashes range := hrest ▸ mem_append_right _ hp
  obtain ⟨hp', hin⟩ := mem_sortedInRange.1 hmem
  obtain ⟨i, ⟨slice, hslice, hpslice⟩, -⟩ := hassigned p hp' hin
  have hfront : p ∈ (assign range depth (sortedInRange hashes range)).flatten :=
    mem_flatten.2 ⟨slice, mem_of_getElem? hslice, hpslice⟩
  rw [← hrest] at hnodup
  exact (nodup_append.1 hnodup).2.2 p hfront p hp rfl

theorem assignedOnce_iff (hcover : LeavesCover range depth) :
    AssignedOnce range depth hashes ↔ InTokenOrder range depth hashes := by
  obtain ⟨leafOf, hleaf⟩ := exists_leafOf hcover
  constructor
  · intro hassigned
    have hpairs : (sortedInRange hashes range).Pairwise fun p q => leafOf p.1 ≤ leafOf q.1 := by
      refine Buckets.pairwise_of_flatten_scan (f := fun p => leafOf p.1) pairwise_lt_range
        ?_ (flatten_assign htokens hassigned)
      intro p hp i hi
      exact ((hleaf p.1 (mem_sortedInRange.1 hp).2).2 i (mem_range.1 hi)).1
    intro p hp q hq hpin hqin hlt i hi j hj hpi hqj
    have hpi' := ((hleaf p.1 hpin).2 i hi).1 hpi
    have hqj' := ((hleaf q.1 hqin).2 j hj).1 hqj
    obtain ⟨k, hk⟩ := mem_iff_getElem?.1 (mem_sortedInRange.2 ⟨hp, hpin⟩)
    obtain ⟨l, hl⟩ := mem_iff_getElem?.1 (mem_sortedInRange.2 ⟨hq, hqin⟩)
    obtain ⟨hk', rfl⟩ := List.getElem?_eq_some_iff.1 hk
    obtain ⟨hl', rfl⟩ := List.getElem?_eq_some_iff.1 hl
    rw [← hpi', ← hqj']
    rcases lt_trichotomy k l with hkl | rfl | hkl
    · exact pairwise_iff_getElem.1 hpairs k l hk' hl' hkl
    · exact le_rfl
    · exact absurd hlt (lt_asymm (pairwise_iff_getElem.1
        (pairwise_sortedInRange range htokens) l k hl' hk' hkl))
  · intro horder p hp hin
    obtain ⟨hlt, hiff⟩ := hleaf p.1 hin
    simp only [getElem?_assign htokens hcover horder]
    refine ⟨leafOf p.1, ⟨_, ⟨hlt, rfl⟩, ?_⟩, ?_⟩
    · exact mem_filter.2 ⟨mem_sortedInRange.2 ⟨hp, hin⟩, (hiff _ hlt).2 rfl⟩
    · rintro i ⟨_, ⟨hi, rfl⟩, hpslice⟩
      exact ((hiff i hi).1 (mem_filter.1 hpslice).2).symm

end

variable {hasher : TreeHasher H}

namespace MerkleTree

theorem flatten_pairs : ∀ l : List H, (pairs l).flatten = l
  | [] => rfl
  | [a] => rfl
  | a :: b :: l => by simp [pairs, flatten_pairs l]

theorem length_parentLevel (hasher : TreeHasher H) :
    ∀ l : List H, (parentLevel hasher l).length = (l.length + 1) / 2
  | [] => by simp [parentLevel, pairs]
  | [a] => by simp [parentLevel, pairs]
  | a :: b :: l => by
    have ih := length_parentLevel hasher l
    simp only [parentLevel, pairs, map_cons, length_cons] at ih ⊢
    omega

/-- Lists are equal if their elements have equal hashes and do not collide. -/
theorem eq_of_map_md5_eq : ∀ {l l' : List (List H)},
    (∀ a ∈ l, ∀ b ∈ l', hasher.md5 a = hasher.md5 b → a = b) →
      l.map hasher.md5 = l'.map hasher.md5 → l = l'
  | [], [], _, _ => rfl
  | [], _ :: _, _, h => by simp at h
  | _ :: _, [], _, h => by simp at h
  | a :: l, b :: l', hinj, h => by
    rw [map_cons, map_cons, List.cons.injEq] at h
    rw [hinj a mem_cons_self b mem_cons_self h.1, eq_of_map_md5_eq (fun c hc d hd =>
      hinj c (mem_cons_of_mem _ hc) d (mem_cons_of_mem _ hd)) h.2]

theorem length_top (hasher : TreeHasher H) {fuel : Nat} :
    ∀ {l : List H}, l ≠ [] → l.length ≤ fuel → (buildLevels hasher fuel l).2.length = 1 := by
  induction fuel with
  | zero => exact fun hne hle => absurd (length_eq_zero_iff.1 (Nat.le_zero.1 hle)) hne
  | succ fuel ih =>
    intro l hne hle
    have hpos := length_pos_iff.2 hne
    simp only [buildLevels]
    split_ifs with hmore
    · have hlen := length_parentLevel hasher l
      exact ih (ne_nil_of_length_pos (by omega)) (by omega)
    · dsimp only
      omega

/-- Levels of the same length that lead to the same top are equal, unless hashes collide. -/
theorem top_injective (fuel : Nat) : ∀ {l l' : List H}, l.length = l'.length →
    (∀ a ∈ hashedAbove hasher fuel l, ∀ b ∈ hashedAbove hasher fuel l',
      hasher.md5 a = hasher.md5 b → a = b) →
    (buildLevels hasher fuel l).2 = (buildLevels hasher fuel l').2 → l = l' := by
  induction fuel with
  | zero => exact fun _ _ h => h
  | succ fuel ih =>
    intro l l' hlen hinj h
    simp only [buildLevels, hashedAbove, ← hlen] at h hinj
    have hlen' : (parentLevel hasher l).length = (parentLevel hasher l').length := by
      rw [length_parentLevel, length_parentLevel, hlen]
    split_ifs at h hinj
    · have hparents := ih hlen' (fun a ha b hb =>
        hinj a (mem_append_right _ ha) b (mem_append_right _ hb)) h
      have hpairs := eq_of_map_md5_eq (fun a ha b hb =>
        hinj a (mem_append_left _ ha) b (mem_append_left _ hb)) hparents
      rw [← flatten_pairs l, hpairs, flatten_pairs]
    · exact h

theorem length_leaves (hasher : TreeHasher H) (range : Token × Token) (depth : Nat)
    (ps : List (Token × H)) : (build hasher range depth ps).leaves.length = 2 ^ depth := by
  simp [build, assign, Buckets.length_scan]

theorem hashes_leaves (hasher : TreeHasher H) (range : Token × Token) (depth : Nat)
    (ps : List (Token × H)) : (build hasher range depth ps).leaves.map MerkleLeaf.hash =
      ((assign range depth ps).map (·.map Prod.snd)).map hasher.md5 := by
  rw [map_map]
  refine List.ext_getElem? fun i => ?_
  simp [build, buildLeaf, Function.comp_def]

/-- Equal roots have equal leaves. -/
theorem leaves_eq_of_rootHash_eq {ps qs : List (Token × H)}
    (hmd5 : NoCollision hasher range depth ps qs)
    (hroot : (build hasher range depth ps).rootHash = (build hasher range depth qs).rootHash) :
    (assign range depth ps).map (·.map Prod.snd) = (assign range depth qs).map (·.map Prod.snd) := by
  have hlen : ∀ ps : List (Token × H),
      ((assign range depth ps).map (·.map Prod.snd)).length = 2 ^ depth := by
    intro ps
    simp [assign, Buckets.length_scan]
  have htop : ∀ ps : List (Token × H), ∃ hash, (buildLevels hasher (2 ^ depth)
        (((assign range depth ps).map (·.map Prod.snd)).map hasher.md5)).2 = [hash] ∧
      (build hasher range depth ps).rootHash = hash := by
    intro ps
    rw [← hashes_leaves]
    have hlength := length_leaves hasher range depth ps
    have hne : (build hasher range depth ps).leaves.map MerkleLeaf.hash ≠ [] :=
      ne_nil_of_length_pos (by rw [length_map, hlength]; exact Nat.two_pow_pos depth)
    obtain ⟨hash, hhash⟩ := length_eq_one_iff.1
      (length_top hasher hne ((length_map _).trans hlength).le)
    refine ⟨hash, hhash, ?_⟩
    rw [← hlength] at hhash
    simp only [build] at hhash ⊢
    rw [hhash]
  obtain ⟨hash, htopl, hrootl⟩ := htop ps
  obtain ⟨hash', htopr, hrootr⟩ := htop qs
  simp only [NoCollision, hashedLists, hlen] at hmd5
  refine eq_of_map_md5_eq (fun a ha b hb =>
    hmd5 a (mem_append_left _ ha) b (mem_append_left _ hb)) ?_
  have hlen' (ps : List (Token × H)) :
      (((assign range depth ps).map (·.map Prod.snd)).map hasher.md5).length = 2 ^ depth := by
    rw [length_map, hlen]
  refine top_injective (2 ^ depth) ((hlen' ps).trans (hlen' qs).symm) (fun a ha b hb =>
    hmd5 a (mem_append_right _ ha) b (mem_append_right _ hb)) ?_
  rw [htopl, htopr, ← hrootl, ← hrootr, hroot]

theorem getElem?_leaves (hasher : TreeHasher H) (range : Token × Token) (depth i : Nat)
    (ps : List (Token × H)) :
    (build hasher range depth ps).leaves[i]? =
      (assign range depth ps)[i]?.map (buildLeaf hasher range depth i) := by
  simp [build]

/-- The leaves that a comparison returns are those with other hashes. -/
theorem exists_diff_build [DecidableEq H] {ps qs : List (Token × H)}
    (hmd5 : NoCollision hasher range depth ps qs) :
    ∃ diffs, (build hasher range depth ps).diff (build hasher range depth qs) = some diffs ∧
      ∀ r, r ∈ diffs ↔ ∃ i a b, (assign range depth ps)[i]? = some a ∧
        (assign range depth qs)[i]? = some b ∧ r = leafRange range depth i ∧
        a.map Prod.snd ≠ b.map Prod.snd := by
  have hshape : ¬ ((build hasher range depth ps).depth ≠ (build hasher range depth qs).depth ∨
      (build hasher range depth ps).leaves.length ≠
        (build hasher range depth qs).leaves.length) := by
    rw [length_leaves, length_leaves]
    simp [build]
  rw [diff, if_neg hshape]
  split_ifs with hroot
  · refine ⟨[], rfl, fun r => ⟨fun h => absurd h not_mem_nil, ?_⟩⟩
    rintro ⟨i, a, b, ha, hb, -, hne⟩
    have hleaves := congrArg (·[i]?) (leaves_eq_of_rootHash_eq hmd5 hroot)
    simp only [List.getElem?_map, ha, hb, Option.map_some, Option.some.injEq] at hleaves
    exact absurd hleaves hne
  · refine ⟨_, rfl, fun r => ?_⟩
    simp only [mem_map, mem_filter, decide_eq_true_eq]
    constructor
    · rintro ⟨l, ⟨hl, hne⟩, rfl⟩
      obtain ⟨i, hi⟩ := mem_iff_getElem?.1 hl
      obtain ⟨h1, h2⟩ := List.getElem?_zip_eq_some.1 hi
      rw [getElem?_leaves, Option.map_eq_some_iff] at h1 h2
      obtain ⟨a, ha, h1⟩ := h1
      obtain ⟨b, hb, h2⟩ := h2
      rw [← h1, ← h2] at hne
      refine ⟨i, a, b, ha, hb, by rw [← h1]; rfl, fun heq => hne ?_⟩
      exact congrArg hasher.md5 heq
    · rintro ⟨i, a, b, ha, hb, rfl, hne⟩
      refine ⟨(buildLeaf hasher range depth i a, buildLeaf hasher range depth i b),
        ⟨mem_iff_getElem?.2 ⟨i, ?_⟩, fun heq => hne (hmd5 _ ?_ _ ?_ heq)⟩, rfl⟩
      · rw [List.getElem?_zip_eq_some]
        exact ⟨by rw [getElem?_leaves, ha]; rfl, by rw [getElem?_leaves, hb]; rfl⟩
      · exact mem_append_left _ (mem_map_of_mem (mem_of_getElem? ha))
      · exact mem_append_left _ (mem_map_of_mem (mem_of_getElem? hb))

end MerkleTree

theorem mem_leafPartitions {p : Token × H} : p ∈ leafPartitions range depth i hashes ↔
      p ∈ hashes ∧ tokenInRange p.1 range = true ∧
        tokenInRange p.1 (leafRange range depth i) = true := by
  rw [leafPartitions, mem_filter, mem_sortedInRange, and_assoc]

/-- The partitions of a leaf differ just if the lists differ at a token of the leaf. -/
theorem leafPartitions_ne_iff (hleft : (left.map Prod.fst).Nodup)
    (hright : (right.map Prod.fst).Nodup) :
    leafPartitions range depth i left ≠ leafPartitions range depth i right ↔
      ∃ t, tokenInRange t range = true ∧ tokenInRange t (leafRange range depth i) = true ∧
        DiffersAt left right t := by
  have hsorted : ∀ {hashes : List (Token × H)}, (hashes.map Prod.fst).Nodup →
      (leafPartitions range depth i hashes).Pairwise fun p q => p.1 < q.1 :=
    fun htokens => (pairwise_sortedInRange range htokens).filter _
  constructor
  · intro hne
    by_contra hsame
    push Not at hsame
    refine hne ?_
    have hmem : ∀ p, p ∈ leafPartitions range depth i left ↔
        p ∈ leafPartitions range depth i right := by
      intro p
      rw [mem_leafPartitions, mem_leafPartitions]
      refine and_congr_left fun hin => ?_
      by_contra hdiff
      exact hsame p.1 hin.1 hin.2 ⟨p.2, hdiff⟩
    have hperm := (perm_ext_iff_of_nodup (nodup_of_pairwise_fst (hsorted hleft))
      (nodup_of_pairwise_fst (hsorted hright))).2 hmem
    refine hperm.eq_of_pairwise ?_ (hsorted hleft) (hsorted hright)
    intro p q _ _ h1 h2
    exact absurd h1 (lt_asymm h2)
  · rintro ⟨t, hin, hleaf, hash, hdiff⟩ heq
    refine hdiff ⟨fun h => ?_, fun h => ?_⟩
    · have hmem := mem_leafPartitions.2 ⟨h, hin, hleaf⟩
      rw [heq] at hmem
      exact (mem_leafPartitions.1 hmem).1
    · have hmem := mem_leafPartitions.2 ⟨h, hin, hleaf⟩
      rw [← heq] at hmem
      exact (mem_leafPartitions.1 hmem).1

/-- A comparison finds the leaves whose hashes differ, which should be those with a difference. -/
theorem diffs_iff_hashesTell [DecidableEq H]
    (hmd5 : NoCollision hasher range depth (sortedInRange left range) (sortedInRange right range))
    (hleft : (left.map Prod.fst).Nodup) (hright : (right.map Prod.fst).Nodup)
    (hcover : LeavesCover range depth) (horderl : InTokenOrder range depth left)
    (horderr : InTokenOrder range depth right) :
    (∃ diffs, (validateFromHashes hasher left range depth).diff
        (validateFromHashes hasher right range depth) = some diffs ∧
      ∀ r, r ∈ diffs ↔ ∃ i < 2 ^ depth, r = leafRange range depth i ∧
        ∃ t, tokenInRange t range = true ∧ tokenInRange t (leafRange range depth i) = true ∧
          DiffersAt left right t) ↔ HashesTell range depth left right := by
  obtain ⟨diffs, hdiffs, hmem⟩ := MerkleTree.exists_diff_build hmd5
  have hmem' : ∀ r, r ∈ diffs ↔ ∃ i < 2 ^ depth, r = leafRange range depth i ∧
      (leafPartitions range depth i left).map Prod.snd ≠
        (leafPartitions range depth i right).map Prod.snd := by
    intro r
    rw [hmem r]
    simp only [getElem?_assign hleft hcover horderl, getElem?_assign hright hcover horderr]
    constructor
    · rintro ⟨i, _, _, ⟨hi, rfl⟩, ⟨-, rfl⟩, hr, hne⟩
      exact ⟨i, hi, hr, hne⟩
    · rintro ⟨i, hi, hr, hne⟩
      exact ⟨i, _, _, ⟨hi, rfl⟩, ⟨hi, rfl⟩, hr, hne⟩
  simp only [← leafPartitions_ne_iff hleft hright]
  constructor
  · rintro ⟨diffs', hdiffs', hfound⟩ i hi hsame
    obtain rfl : diffs = diffs' := Option.some.inj (hdiffs.symm.trans hdiffs')
    by_contra hne
    obtain ⟨j, hj, hrange, hhashes⟩ := (hmem' _).1 ((hfound _).2 ⟨i, hi, rfl, hne⟩)
    -- Leaves of the same range are the same leaf, as a token in it shows.
    obtain ⟨t, hin, hleaf, -⟩ := (leafPartitions_ne_iff hleft hright).1 hne
    obtain rfl : i = j := (hcover t hin).unique ⟨hi, hleaf⟩ ⟨hj, hrange ▸ hleaf⟩
    exact hhashes hsame
  · intro htell
    refine ⟨diffs, hdiffs, fun r => (hmem' r).trans ?_⟩
    refine exists_congr fun i => and_congr_right fun hi => and_congr_right fun _ => ?_
    exact not_congr ⟨htell i hi, congrArg (List.map Prod.snd)⟩

/-- A comparison is right just if the width fits, the leaves are in token order and the hashes of a
leaf tell their tokens. -/
theorem findsDifferences_iff [DecidableEq H] (hasher : TreeHasher H) (range : Token × Token)
    (depth : Nat) (hdepth : depth ≤ 30) (left right : List (Token × H))
    (hmd5 : NoCollision hasher range depth (sortedInRange left range) (sortedInRange right range))
    (hleft : (left.map Prod.fst).Nodup)
    (hright : (right.map Prod.fst).Nodup) :
    FindsDifferences hasher range depth left right ↔
      WidthFits range depth ∧ InTokenOrder range depth left ∧ InTokenOrder range depth right ∧
        HashesTell range depth left right := by
  constructor
  · rintro ⟨hassignedl, hassignedr, hcover, hdiff⟩
    have horderl := (assignedOnce_iff hleft hcover).1 hassignedl
    have horderr := (assignedOnce_iff hright hcover).1 hassignedr
    exact ⟨(leavesCover_iff hdepth).1 hcover, horderl, horderr,
      (diffs_iff_hashesTell hmd5 hleft hright hcover horderl horderr).1 hdiff⟩
  · rintro ⟨hfits, horderl, horderr, htell⟩
    have hcover := (leavesCover_iff hdepth).2 hfits
    exact ⟨(assignedOnce_iff hleft hcover).2 horderl, (assignedOnce_iff hright hcover).2 horderr,
      hcover, (diffs_iff_hashesTell hmd5 hleft hright hcover horderl horderr).2 htell⟩

/-- A hasher with hashes of 64 bits. -/
def polynomialHasher : TreeHasher UInt64 where
  md5 hashes := hashes.foldl (fun sum hash => 31 * sum + hash) 1
  zero := 0

theorem findsDifferences_upperLeaf :
    FindsDifferences polynomialHasher (0, 100) 1 [(60, 1), (10, 2)] [(10, 2), (60, 3)] :=
  (findsDifferences_iff polynomialHasher (0, 100) 1 (by decide) _ _
    (by unfold NoCollision; decide) (by decide) (by decide)).2
    ⟨.inr (.inl (by decide)), by unfold InTokenOrder; decide, by unfold InTokenOrder; decide,
      by unfold HashesTell; decide⟩

/-- Behind the end of the ring, the scan stops at the tokens of the last leaf and leaves out those of
the first one. -/
theorem not_findsDifferences_wrapping :
    ¬ FindsDifferences polynomialHasher (10, -10) 1 [(-20, 1), (20, 2)] [(-20, 1), (20, 3)] := by
  intro h
  obtain ⟨i, ⟨slice, hslice, hmem⟩, -⟩ := h.assignedLeft (20, 2) (by decide) (by decide)
  have hassign : assign (10, -10) 1 (sortedInRange [(-20, 1), (20, 2)] (10, -10)) =
      [[], [((-20 : Token), (1 : UInt64))]] := by decide
  rw [hassign] at hslice
  have hin := mem_of_getElem? hslice
  simp only [mem_cons, not_mem_nil, or_false] at hin
  rcases hin with rfl | rfl
  · exact absurd hmem not_mem_nil
  · exact absurd hmem (by decide)

end CassandraVerified.Repair
