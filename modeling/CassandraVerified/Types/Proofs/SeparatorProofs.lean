import CassandraVerified.Types.ByteComparable

/-!
# Separators and successors of keys

Two keys are compared where they first differ. A successor is larger than all keys that begin with
a key, and the least such.
-/

namespace CassandraVerified.Types

open List
open Wire (Bytes)

variable {previous next key front front' run ps ns : Bytes} {a b c : UInt8}

theorem lt_append (front ps ns : Bytes) (hab : a < b) : front ++ a :: ps < front ++ b :: ns :=
  append_left_lt (cons_lt_cons_iff.mpr (.inl hab))

/-- The smaller key ends first, or has the smaller byte where they differ. -/
theorem exists_split_of_lt (h : previous < next) : previous <+: next ∨
    ∃ front a b ps ns, a < b ∧ previous = front ++ a :: ps ∧ next = front ++ b :: ns := by
  induction previous generalizing next with
  | nil => exact .inl nil_prefix
  | cons x previous ih =>
    cases next with
    | nil => exact absurd h (not_lt_nil _)
    | cons y next =>
      rcases cons_lt_cons_iff.mp h with hlt | ⟨rfl, hlt⟩
      · exact .inr ⟨[], x, y, previous, next, hlt, rfl, rfl⟩
      · rcases ih hlt with hbegins | ⟨front, a, b, ps, ns, hab, rfl, rfl⟩
        · exact .inl (cons_prefix_cons.mpr ⟨rfl, hbegins⟩)
        · exact .inr ⟨x :: front, a, b, ps, ns, hab, rfl, rfl⟩

theorem commonLength_append (front ps ns : Bytes) :
    commonLength (front ++ ps) (front ++ ns) = front.length + commonLength ps ns := by
  induction front with
  | nil => simp
  | cons x front ih =>
    rw [length_cons, Nat.add_right_comm, ← ih]
    simp [commonLength]

theorem separatorBetween_of_split (hab : a < b) :
    front ++ a :: ps < separatorBetween (front ++ a :: ps) (front ++ b :: ns) ∧
      separatorBetween (front ++ a :: ps) (front ++ b :: ns) ≤ front ++ b :: ns := by
  have hlt := lt_append front ps ns hab
  have hshort := lt_append front ps [] hab
  have hcommon : commonLength (a :: ps) (b :: ns) = 0 := by simp [commonLength, UInt8.ne_of_lt hab]
  have htake : (front ++ b :: ns).take (front.length + 1) = front ++ [b] := take_length_add_append 1
  simp only [separatorBetween, if_neg (List.not_le.mpr hlt), commonLength_append, hcommon,
    Nat.add_zero, htake, if_neg (List.not_le.mpr hshort)]
  rw [if_neg (by simp)]
  simp only [getD_eq_getElem?_getD, getElem?_append_right le_rfl, Nat.sub_self, getElem?_cons_zero,
    Option.getD_some, take_left]
  split
  · next h => exact ⟨lt_append front ps [] (by grind), List.le_of_lt (lt_append front [] ns h.2)⟩
  · exact ⟨hshort, IsPrefix.le ⟨ns, by simp⟩⟩

/-- The run is the end of the key that is dropped. -/
theorem successor_le_of_split (hrun : ∀ d ∈ run, d = 0xFF) (hac : a < c)
    (h : front ++ b :: run = front' ++ a :: ps) : front ++ [b + 1] ≤ front' ++ c :: ns := by
  induction front generalizing front' with
  | nil =>
    cases front' with
    | nil =>
      cases h
      refine cons_le_cons_iff.mpr ?_
      rcases eq_or_ne (a + 1) c with heq | hne
      · exact .inr ⟨heq, nil_le ns⟩
      · exact .inl (by grind)
    | cons x front' =>
      cases h
      have ha := hrun a (by simp)
      grind
  | cons y front ih =>
    cases front' with
    | nil =>
      cases h
      exact List.le_of_lt (cons_lt_cons_iff.mpr (.inl hac))
    | cons x front' =>
      obtain ⟨rfl, hrest⟩ := cons.inj h
      exact cons_le_cons_iff.mpr (.inr ⟨rfl, ih hrest⟩)

theorem successor_isLeast (h : ∃ b ∈ key, b ≠ 0xFF) :
    ∃ s, successor key = some s ∧ IsLeast {t | ∀ x, key <+: x → x < t} s := by
  have hsplit := takeWhile_append_dropWhile (p := (· == 0xFF)) (l := key.reverse)
  cases hdrop : key.reverse.dropWhile (· == 0xFF) with
  | nil =>
    obtain ⟨b, hmem, hb⟩ := h
    have hall := dropWhile_eq_nil_iff.mp hdrop b (mem_reverse.mpr hmem)
    simp [hb] at hall
  | cons b front =>
    have hb : b ≠ 0xFF := by
      simpa [hdrop] using head?_dropWhile_not (· == 0xFF) key.reverse
    have hrun : ∀ d ∈ (key.reverse.takeWhile (· == 0xFF)).reverse, d = 0xFF := fun d hd => by
      simpa using mem_takeWhile_imp (mem_reverse.mp hd)
    rw [hdrop] at hsplit
    have hkey := congrArg reverse hsplit.symm
    rw [reverse_reverse, reverse_append, reverse_cons, append_assoc] at hkey
    refine ⟨_, by rw [successor, hdrop], ?_, fun t ht => ?_⟩
    · rintro x ⟨rest, rfl⟩
      rw [hkey, append_assoc]
      exact lt_append front.reverse _ [] (by grind)
    · obtain ⟨rest, rfl⟩ | ⟨front', a, c, ps, ns, hac, hfront, rfl⟩ :=
        exists_split_of_lt (ht key (prefix_refl key))
      · exact absurd (ht _ ⟨rest, rfl⟩) (List.lt_irrefl _)
      · exact successor_le_of_split hrun hac (hkey.symm.trans hfront)

/-- A key that the next one begins with is returned as it is. -/
theorem separates_iff (hlt : previous < next) (hkey : ∃ b ∈ key, b ≠ 0xFF) :
    ((previous < separatorBetween previous next ∧ separatorBetween previous next ≤ next) ∧
      ∃ s, successor key = some s ∧ IsLeast {t | ∀ x, key <+: x → x < t} s) ↔
      ¬ previous <+: next := by
  rw [and_iff_left (successor_isLeast hkey)]
  obtain ⟨rest, rfl⟩ | ⟨front, a, b, ps, ns, hab, rfl, rfl⟩ := exists_split_of_lt hlt
  · have hcommon := commonLength_append previous [] rest
    rw [append_nil] at hcommon
    rw [separatorBetween, if_neg (List.not_le.mpr hlt), hcommon]
    simp [commonLength]
  · refine iff_of_true (separatorBetween_of_split hab) fun hbegins => ?_
    simp [UInt8.ne_of_lt hab] at hbegins

/-- "abc" and "abx!"; and a key that ends in 0xFF. -/
theorem separates_iff_commonFront :
    ([97, 98, 99] < separatorBetween [97, 98, 99] [97, 98, 120, 33] ∧
      separatorBetween [97, 98, 99] [97, 98, 120, 33] ≤ [97, 98, 120, 33]) ∧
      ∃ s, successor [97, 0xFF] = some s ∧ IsLeast {t | ∀ x, [97, 0xFF] <+: x → x < t} s :=
  (separates_iff (by decide) ⟨97, by decide⟩).mpr (by decide)

/-- "a" and "abc"; "ab" would separate them. -/
theorem not_separates_front :
    [97] < [97, 98, 99] ∧ ¬ [97] < separatorBetween [97] [97, 98, 99] := by
  decide

end CassandraVerified.Types
