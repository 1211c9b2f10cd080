import Mathlib

/-!
# Binary search

`slice::binary_search_by` of the Rust standard library. In a slice that is sorted by the comparison
it finds the element that compares equal if there is one.
-/

namespace BinarySearch

variable {α : Type} (cmp : α → Ordering)

/-- The start of the part that is left when it has one element. -/
def narrow (l : List α) : (fuel base size : ℕ) → ℕ
  | 0, base, _ => base
  | fuel + 1, base, size =>
    if size ≤ 1 then base
    else
      narrow l fuel (if (l[base + size / 2]?.map cmp) = some .gt then base else base + size / 2)
        (size - size / 2)

def search (l : List α) : Option α :=
  (l[narrow cmp l l.length 0 l.length]?).filter fun a => cmp a = .eq

/-- Elements that compare less come first, then those that compare equal, then the greater ones. -/
def Sorted (l : List α) : Prop := l.Pairwise fun a b => cmp a = .gt → cmp b = .gt

/-- The last element that is not greater stays in the part that is left. -/
theorem narrow_spec {l : List α} (hsorted : Sorted cmp l) {i : ℕ} {a : α} (hi : l[i]? = some a)
    (ha : cmp a ≠ .gt) (hlast : ∀ j b, i < j → l[j]? = some b → cmp b = .gt) {fuel base size : ℕ}
    (hsize : size ≤ fuel + 1) (hlo : base ≤ i) (hhi : i < base + size)
    (hlen : base + size ≤ l.length) : narrow cmp l fuel base size = i := by
  induction fuel generalizing base size with
  | zero =>
    rw [narrow]
    omega
  | succ fuel ih =>
    rw [narrow]
    split
    · omega
    · next hlarge =>
      obtain ⟨b, hb⟩ : ∃ b, l[base + size / 2]? = some b :=
        ⟨l.get ⟨base + size / 2, by omega⟩, List.getElem?_eq_getElem _⟩
      by_cases hgt : cmp b = .gt
      · have hmid : i < base + size / 2 := by
          by_contra hle
          rcases Nat.eq_or_lt_of_le (not_lt.mp hle) with heq | hlt
          · rw [heq, hi] at hb
            exact ha (Option.some.inj hb ▸ hgt)
          · obtain ⟨hlt', hb'⟩ := List.getElem?_eq_some_iff.mp hb
            obtain ⟨hi', ha'⟩ := List.getElem?_eq_some_iff.mp hi
            have hpair := List.pairwise_iff_getElem.mp hsorted (base + size / 2) i hlt' hi' hlt
            rw [hb', ha'] at hpair
            exact ha (hpair hgt)
        rw [hb, Option.map_some, hgt, if_pos rfl]
        exact ih (by omega) hlo (by omega) (by omega)
      · have hmid : base + size / 2 ≤ i := by
          by_contra hlt
          exact hgt (hlast _ b (not_le.mp hlt) hb)
        rw [hb, Option.map_some, if_neg (by simpa using hgt)]
        exact ih (by omega) hmid (by omega) (by omega)

/-- In a list with strictly increasing keys the search finds the element with a key. -/
theorem search_eq_find? {β : Type} {order : β → β → Ordering} [Std.TransCmp order] {key : α → β}
    {l : List α} (hl : l.Pairwise fun a b => order (key a) (key b) = .lt) (k : β) :
    search (fun a => order (key a) k) l = l.find? fun a => order (key a) k = .eq := by
  have hgt : ∀ {a b : α}, order (key a) (key b) = .lt → order (key a) k ≠ .lt →
      order (key b) k = .gt := by
    intro a b hab hak
    rw [Std.OrientedCmp.gt_iff_lt]
    have hle : (order k (key a)).isLE := by
      rw [@Std.OrientedCmp.eq_swap _ order]
      cases h : order (key a) k <;> simp_all
    exact Std.TransCmp.lt_of_isLE_of_lt hle hab
  cases hfind : l.find? fun a => order (key a) k = .eq with
  | none =>
    rw [List.find?_eq_none] at hfind
    rw [search, Option.filter_eq_none_iff]
    intro a ha
    exact hfind a (List.mem_of_getElem? ha)
  | some a =>
    have heq : order (key a) k = .eq := by simpa using List.find?_some hfind
    obtain ⟨i, hi⟩ := List.mem_iff_getElem?.mp (List.mem_of_find?_eq_some hfind)
    obtain ⟨hilt, hia⟩ := List.getElem?_eq_some_iff.mp hi
    have hsorted : Sorted (fun a => order (key a) k) l := by
      unfold Sorted
      refine hl.imp ?_
      intro a b hab (hak : order (key a) k = .gt)
      exact hgt hab (by rw [hak]; decide)
    have hlast : ∀ j b, i < j → l[j]? = some b → order (key b) k = .gt := by
      intro j b hij hj
      obtain ⟨hjlt, hjb⟩ := List.getElem?_eq_some_iff.mp hj
      have hpair := List.pairwise_iff_getElem.mp hl i j hilt hjlt hij
      rw [hia, hjb] at hpair
      exact hgt hpair (by rw [heq]; decide)
    have hnarrow : narrow (fun a => order (key a) k) l l.length 0 l.length = i :=
      narrow_spec _ hsorted hi (by rw [heq]; decide) hlast (by omega) (by omega) (by omega) (by omega)
    rw [search, hnarrow, hi, Option.filter_some, if_pos (by simpa using heq)]

end BinarySearch
