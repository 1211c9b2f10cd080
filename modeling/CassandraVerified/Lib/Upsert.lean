import Mathlib

/-!
# Merging into a keyed list

Elements are merged, one after the other, into the first element with their key, or else appended.
-/

namespace Upsert

open List

variable {α β κ M : Type*} [DecidableEq κ] (key : α → κ) (merge : α → α → α)

def upsert (x : α) : List α → List α
  | [] => [x]
  | a :: l => if key a = key x then merge a x :: l else a :: upsert x l

def upsertAll (l xs : List α) : List α := xs.foldl (fun l x => upsert key merge x l) l

variable {key merge} {x : α} {l xs : List α}

section Additive

variable [AddCommMonoid M] {P : α → Prop} {f : α → M}
  (h : ∀ {a x}, P a → P x → key a = key x → P (merge a x) ∧ f (merge a x) = f a + f x)

include h

theorem upsert_spec (hx : P x) (hl : ∀ a ∈ l, P a) : (∀ a ∈ upsert key merge x l, P a) ∧
      ((upsert key merge x l).map f).sum = (l.map f).sum + f x := by
  induction l with
  | nil => simpa [upsert] using hx
  | cons a l ih =>
    obtain ⟨ha, hl⟩ := forall_mem_cons.mp hl
    obtain ⟨hall, hsum⟩ := ih hl
    unfold upsert
    split
    · next hkey =>
      obtain ⟨hmerged, hf⟩ := h ha hx hkey
      refine ⟨forall_mem_cons.mpr ⟨hmerged, hl⟩, ?_⟩
      simp only [map_cons, sum_cons, hf, add_right_comm]
    · refine ⟨forall_mem_cons.mpr ⟨ha, hall⟩, ?_⟩
      simp only [map_cons, sum_cons, hsum, add_assoc]

theorem upsertAll_spec (hxs : ∀ x ∈ xs, P x) (hl : ∀ a ∈ l, P a) :
    (∀ a ∈ upsertAll key merge l xs, P a) ∧
      ((upsertAll key merge l xs).map f).sum = (l.map f).sum + (xs.map f).sum := by
  induction xs generalizing l with
  | nil => simpa [upsertAll] using hl
  | cons x xs ih =>
    obtain ⟨hx, hxs⟩ := forall_mem_cons.mp hxs
    obtain ⟨hall, hsum⟩ := upsert_spec h hx hl
    obtain ⟨hall', hsum'⟩ := ih hxs hall
    refine ⟨hall', hsum'.trans ?_⟩
    rw [hsum, map_cons, sum_cons, add_assoc]

end Additive

theorem map_upsert {F : α → β} (hF : ∀ a x, F (merge a x) = F a) : (upsert key merge x l).map F =
      if key x ∈ l.map key then l.map F else l.map F ++ [F x] := by
  induction l with
  | nil => simp [upsert]
  | cons a l ih =>
    unfold upsert
    split
    · next hkey => simp [hF, hkey]
    · next hkey =>
      simp only [map_cons, ih, mem_cons, Ne.symm hkey, false_or, cons_append]
      split <;> rfl

/-- Only the first element with the key `k` counts. -/
theorem sum_upsertAll_of_merge_eq [AddCommMonoid M] {s : α → M} (k : κ)
    (hkey : ∀ a x, key (merge a x) = key a) (hs : ∀ a x, s (merge a x) = s a) :
    ((upsertAll key merge l xs).map fun a => if key a = k then s a else 0).sum =
      (l.map fun a => if key a = k then s a else 0).sum +
        if k ∈ l.map key then 0 else ((xs.filter (key · = k)).head?.map s).getD 0 := by
  induction xs generalizing l with
  | nil => simp [upsertAll]
  | cons x xs ih =>
    have hstep := ih (l := upsert key merge x l)
    rw [map_upsert hkey, map_upsert fun a x => by rw [hkey, hs]] at hstep
    refine hstep.trans ?_
    by_cases hmem : key x ∈ l.map key <;> by_cases hx : key x = k
    · simp [hmem, ← hx]
    · simp [hmem, hx]
    · simp [hmem, ← hx]
    · simp [hmem, hx, Ne.symm hx]

end Upsert
