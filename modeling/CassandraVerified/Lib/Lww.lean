import Mathlib.Data.List.MinMax
import Mathlib.Tactic.Order

/-!
# Last-write-wins registers

A last-write-wins register keeps, of the versions written to it, one of greatest rank, and of two
versions of equal rank the one that came first. Over a list of versions this is Mathlib's
`List.argmax`; `pick` and `merge` are the operations an implementation performs. They are
associative, but on versions of equal rank the order decides (`argmax_congr`).
-/

namespace Lww

open List

variable {α β : Type*} [LinearOrder β] (rank : α → β)

/-- The version kept when `b` arrives while `a` is held. -/
def pick (a b : α) : α := if rank a < rank b then b else a

/-- Merging two registers that may be empty; the left one is the one held. -/
def merge : Option α → Option α → Option α
  | none, b => b
  | some a, none => some a
  | some a, some b => some (pick rank a b)

/-- `a` is a version of greatest rank among `l`. -/
def IsTop (l : List α) (a : α) : Prop := a ∈ l ∧ ∀ b ∈ l, rank b ≤ rank a

@[simp] theorem merge_none_left (b : Option α) : merge rank none b = b := rfl

@[simp] theorem merge_none_right (a : Option α) : merge rank a none = a := by
  cases a <;> rfl

theorem merge_some_some (a b : α) : merge rank (some a) (some b) = some (pick rank a b) := rfl

theorem pick_eq_or (a b : α) : pick rank a b = a ∨ pick rank a b = b := by
  unfold pick
  split
  · exact Or.inr rfl
  · exact Or.inl rfl

theorem rank_le_pick_left (a b : α) : rank a ≤ rank (pick rank a b) := by
  unfold pick
  split
  · next h => exact h.le
  · exact le_rfl

theorem rank_le_pick_right (a b : α) : rank b ≤ rank (pick rank a b) := by
  unfold pick
  split
  · exact le_rfl
  · next h => exact not_lt.mp h

theorem merge_assoc (a b c : Option α) :
    merge rank (merge rank a b) c = merge rank a (merge rank b c) := by
  cases a <;> cases b <;> cases c <;> simp only [merge, pick, Option.some.injEq]
  split_ifs <;> first | rfl | (exfalso; order)

theorem argmax_concat_eq_merge (l : List α) (b : α) :
    (l ++ [b]).argmax rank = merge rank (l.argmax rank) (some b) := by
  rw [argmax_concat]
  cases l.argmax rank with
  | none => rfl
  | some a => simp only [merge, pick, apply_ite some]

/-- Reading a list of versions that was cut in two is merging the readings of the parts. -/
theorem argmax_append (l m : List α) :
    (l ++ m).argmax rank = merge rank (l.argmax rank) (m.argmax rank) := by
  induction m using List.reverseRecOn with
  | nil => simp
  | append_singleton m b ih =>
    rw [← append_assoc, argmax_concat_eq_merge, ih, argmax_concat_eq_merge, merge_assoc]

variable {l : List α} {a : α}

theorem isTop_of_mem_argmax (h : a ∈ l.argmax rank) : IsTop rank l a :=
  ⟨argmax_mem h, fun _ hb => le_of_mem_argmax hb h⟩

theorem exists_argmax_of_mem (h : a ∈ l) : ∃ b, l.argmax rank = some b ∧ IsTop rank l b := by
  cases hb : l.argmax rank with
  | none => exact absurd (argmax_eq_none.mp hb ▸ h) not_mem_nil
  | some b => exact ⟨b, rfl, isTop_of_mem_argmax rank hb⟩

/-- A version of greatest rank that is written first is kept. -/
theorem argmax_cons_of_isTop (h : IsTop rank (a :: l) a) :
    (a :: l).argmax rank = some a := by
  rw [argmax_cons]
  cases hl : l.argmax rank with
  | none => rfl
  | some b =>
    have hb : rank b ≤ rank a := h.2 b (mem_cons_of_mem a (argmax_mem hl))
    simp [not_lt.mpr hb]

theorem argmax_eq_some_of_isTop (h : IsTop rank l a) (huniq : ∀ b, IsTop rank l b → b = a) :
    l.argmax rank = some a := by
  obtain ⟨b, hb, htop⟩ := exists_argmax_of_mem rank h.1
  rw [hb, huniq b htop]

theorem IsTop.congr {l m : List α} (hmem : ∀ a, a ∈ l ↔ a ∈ m) :
    IsTop rank l a ↔ IsTop rank m a := by
  simp only [IsTop, hmem]

/-- When the version of greatest rank is unique, neither the order nor the number of the writes
matters. -/
theorem argmax_congr {l m : List α} (hmem : ∀ a, a ∈ l ↔ a ∈ m)
    (huniq : ∀ a b, IsTop rank l a → IsTop rank l b → a = b) :
    l.argmax rank = m.argmax rank := by
  cases hm : m.argmax rank with
  | none =>
    rw [argmax_eq_none] at hm ⊢
    exact eq_nil_iff_forall_not_mem.mpr fun a ha => by simp [hmem, hm] at ha
  | some a =>
    have ha : IsTop rank l a := (IsTop.congr rank hmem).mpr (isTop_of_mem_argmax rank hm)
    exact argmax_eq_some_of_isTop rank ha fun b hb => huniq b a hb ha

end Lww
