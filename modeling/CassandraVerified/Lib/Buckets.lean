import Mathlib

/-!
# One forward scan over buckets

A scan visits buckets in order and takes from the front of a list as long as the elements belong to
the bucket it is at. If every element has one bucket, the scan finds all elements just if their
buckets ascend along the list, and then it splits the list as filters do.
-/

namespace Buckets

open List

variable {is : List ℕ} {i : ℕ}

variable {α : Type*} {inside : ℕ → α → Bool}

/-- What the scan takes into each of the buckets. -/
def scan (inside : ℕ → α → Bool) : List ℕ → List α → List (List α)
  | [], _ => []
  | i :: is, xs => xs.takeWhile (inside i) :: scan inside is (xs.dropWhile (inside i))

theorem front_flatten_scan (is : List ℕ) (xs : List α) : (scan inside is xs).flatten <+: xs := by
  induction is generalizing xs with
  | nil => exact nil_prefix
  | cons i is ih =>
    rw [scan, flatten_cons]
    conv_rhs => rw [← takeWhile_append_dropWhile (p := inside i) (l := xs)]
    exact (prefix_append_right_inj _).2 (ih _)

theorem length_scan (is : List ℕ) (xs : List α) : (scan inside is xs).length = is.length := by
  induction is generalizing xs with
  | nil => rfl
  | cons i is ih => simp [scan, ih]

theorem inside_of_mem_scan {xs ys : List α} {k : ℕ} (hi : is[k]? = some i)
    (hys : (scan inside is xs)[k]? = some ys) : ∀ y ∈ ys, inside i y = true := by
  induction is generalizing xs k with
  | nil => simp at hi
  | cons j is ih =>
    cases k with
    | zero =>
      simp only [List.getElem?_cons_zero, Option.some.injEq, scan] at hi hys
      subst hi hys
      exact fun y hy => mem_takeWhile_imp hy
    | succ k => exact ih (by simpa using hi) (by simpa [scan] using hys)

section

variable {f : α → ℕ} {xs : List α}

theorem takeWhile_eq_filter (hf : ∀ x ∈ xs, (inside i x = true ↔ f x = i))
    (hmin : ∀ x ∈ xs, i ≤ f x) (hsorted : xs.Pairwise (f · ≤ f ·)) :
    xs.takeWhile (inside i) = xs.filter (inside i) := by
  induction xs with
  | nil => rfl
  | cons x xs ih =>
    obtain ⟨hhead, htail⟩ := pairwise_cons.1 hsorted
    cases hx : inside i x with
    | true =>
      rw [takeWhile_cons, filter_cons, hx, ih (fun y hy => hf y (mem_cons_of_mem _ hy))
          (fun y hy => hmin y (mem_cons_of_mem _ hy)) htail]
      rfl
    | false =>
      -- all later buckets are later ones
      have hne : f x ≠ i := fun heq => by
        rw [(hf x mem_cons_self).2 heq] at hx
        exact Bool.noConfusion hx
      have hlt : i < f x := lt_of_le_of_ne (hmin x mem_cons_self) (Ne.symm hne)
      have hnone : ∀ y ∈ x :: xs, ¬ inside i y = true := by
        intro y hy hin
        rcases mem_cons.1 hy with rfl | hmem
        · rw [hx] at hin
          exact Bool.noConfusion hin
        · have h1 := (hf y (mem_cons_of_mem _ hmem)).1 hin
          have h2 := hhead y hmem
          omega
      rw [filter_eq_nil_iff.2 hnone, takeWhile_cons, hx]
      rfl

theorem dropWhile_eq_filter (htake : xs.takeWhile (inside i) = xs.filter (inside i)) :
    xs.dropWhile (inside i) = xs.filter (! inside i ·) := by
  induction xs with
  | nil => rfl
  | cons x xs ih =>
    cases hx : inside i x with
    | true =>
      simp only [takeWhile_cons, filter_cons, hx, if_true, List.cons.injEq, true_and] at htake
      simp [hx, ih htake]
    | false =>
      have hnil : (x :: xs).filter (inside i) = [] := by
        rw [← htake, takeWhile_cons, hx]
        rfl
      have hall : ∀ y ∈ x :: xs, (! inside i y) = true := fun y hy => by
        simpa using filter_eq_nil_iff.1 hnil y hy
      rw [filter_eq_self.2 hall, dropWhile_cons, hx]
      rfl

/-- A scan over ascending buckets of elements in ascending buckets. -/
theorem scan_eq_map_filter (his : is.Pairwise (· < ·))
    (hf : ∀ x ∈ xs, f x ∈ is ∧ ∀ i ∈ is, (inside i x = true ↔ f x = i))
    (hsorted : xs.Pairwise (f · ≤ f ·)) :
    scan inside is xs = is.map fun i => xs.filter (inside i) := by
  induction is generalizing xs with
  | nil => rfl
  | cons i is ih =>
    obtain ⟨hhead, htail⟩ := pairwise_cons.1 his
    have hmin : ∀ x ∈ xs, i ≤ f x := by
      intro x hx
      rcases mem_cons.1 (hf x hx).1 with heq | hmem
      · exact heq.ge
      · exact (hhead _ hmem).le
    have htake := takeWhile_eq_filter (fun x hx => (hf x hx).2 i mem_cons_self) hmin hsorted
    have hdrop := dropWhile_eq_filter htake
    have hrest : ∀ x ∈ xs.filter (! inside i ·), f x ∈ is ∧
        ∀ j ∈ is, (inside j x = true ↔ f x = j) := by
      intro x hx
      obtain ⟨hmem, hout⟩ := mem_filter.1 hx
      obtain ⟨hbucket, hiff⟩ := hf x hmem
      refine ⟨(mem_cons.1 hbucket).resolve_left fun heq => ?_,
        fun j hj => hiff j (mem_cons_of_mem _ hj)⟩
      rw [(hiff i mem_cons_self).2 heq] at hout
      exact Bool.noConfusion hout
    rw [scan, htake, hdrop, ih htail hrest (hsorted.filter _), map_cons]
    congr 1
    refine map_congr_left fun j hj => ?_
    rw [filter_filter]
    refine filter_congr fun x hx => ?_
    have hne : i ≠ j := (hhead j hj).ne
    cases hin : inside j x with
    | false => rfl
    | true =>
      have hj' := ((hf x hx).2 j (mem_cons_of_mem _ hj)).1 hin
      have hout : inside i x = false := by
        by_contra hcon
        rw [Bool.not_eq_false] at hcon
        exact hne (((hf x hx).2 i mem_cons_self).1 hcon ▸ hj')
      rw [hout]
      rfl

/-- A scan that has taken everything met the buckets in ascending order. -/
theorem pairwise_of_flatten_scan (his : is.Pairwise (· < ·))
    (hf : ∀ x ∈ xs, ∀ i ∈ is, inside i x = true → f x = i)
    (hall : (scan inside is xs).flatten = xs) : xs.Pairwise (f · ≤ f ·) := by
  rw [← hall]
  have hmem : ∀ x ∈ (scan inside is xs).flatten, x ∈ xs := fun x hx => hall ▸ hx
  have hslice : ∀ (k i : ℕ), is[k]? = some i → ∀ ys, (scan inside is xs)[k]? = some ys →
      ∀ y ∈ ys, f y = i := by
    intro k i hi ys hys y hy
    have hin := inside_of_mem_scan hi hys y hy
    have hy' := hmem y (mem_flatten.2 ⟨ys, mem_of_getElem? hys, hy⟩)
    exact hf y hy' i (mem_of_getElem? hi) hin
  have hlen : (scan inside is xs).length = is.length := length_scan is xs
  rw [pairwise_flatten]
  constructor
  · intro ys hys
    obtain ⟨k, hk⟩ := mem_iff_getElem?.1 hys
    have hlt : k < is.length := hlen ▸ (List.getElem?_eq_some_iff.1 hk).1
    have hfy := hslice k is[k] (List.getElem?_eq_getElem hlt) ys hk
    refine pairwise_of_forall_mem_list fun a ha b hb => ?_
    rw [hfy a ha, hfy b hb]
  · rw [pairwise_iff_getElem]
    intro j k hj hk hjk a ha b hb
    have hj' : j < is.length := hlen ▸ hj
    have hk' : k < is.length := hlen ▸ hk
    rw [hslice j is[j] (List.getElem?_eq_getElem hj') _ (List.getElem?_eq_getElem hj) a ha,
      hslice k is[k] (List.getElem?_eq_getElem hk') _ (List.getElem?_eq_getElem hk) b hb]
    exact (pairwise_iff_getElem.1 his j k hj' hk' hjk).le

end

end Buckets
