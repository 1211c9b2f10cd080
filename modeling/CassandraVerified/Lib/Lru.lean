import Mathlib.Data.List.Basic

/-!
# Least-recently-used caches

A bounded map that drops the entry that was not used for the longest time. `Lru` is what is known of
such maps to their users: an answer is always one of the entries, and each operation only moves,
adds or removes entries, so that an invariant of the form "every entry is right" is kept by all of them.
-/

/-- A library of caches, with its laws. Which entries it drops is not said. -/
class Lru where
  Cache : Type → Type → Type
  new {K V : Type} (capacity : Nat) : Cache K V
  get {K V : Type} [DecidableEq K] (c : Cache K V) (k : K) : Option V × Cache K V
  put {K V : Type} [DecidableEq K] (c : Cache K V) (k : K) (v : V) : Cache K V
  /-- Drops the entries of some keys. -/
  eraseIf {K V : Type} (c : Cache K V) (p : K → Bool) : Cache K V
  entries {K V : Type} (c : Cache K V) : List (K × V)
  entries_new {K V : Type} (capacity : Nat) : entries (new capacity : Cache K V) = []
  mem_of_get {K V : Type} [DecidableEq K] {c : Cache K V} {k : K} {v : V} :
    (get c k).1 = some v → (k, v) ∈ entries c
  get_of_none {K V : Type} [DecidableEq K] {c : Cache K V} {k : K} :
    (get c k).1 = none → (get c k).2 = c
  mem_entries_of_get {K V : Type} [DecidableEq K] {c : Cache K V} {k : K} {e : K × V} :
    e ∈ entries (get c k).2 → e ∈ entries c
  mem_entries_of_put {K V : Type} [DecidableEq K] {c : Cache K V} {k : K} {v : V} {e : K × V} :
    e ∈ entries (put c k v) → e = (k, v) ∨ e ∈ entries c ∧ e.1 ≠ k
  mem_entries_eraseIf {K V : Type} {c : Cache K V} {p : K → Bool} {e : K × V} :
    e ∈ entries (eraseIf c p) ↔ e ∈ entries c ∧ p e.1 = false

/-- The entries of a cache. -/
abbrev Lru.Cache.entries [Lru] {K V : Type} (c : Cache K V) : List (K × V) := Lru.entries c

/-- A cache with its entries, the most recently used one first. -/
structure RecencyList (K V : Type) where
  capacity : Nat
  entries : List (K × V)
deriving Repr, DecidableEq

namespace RecencyList

open List

variable {K V : Type} [DecidableEq K]

/-- The entry that is found becomes the most recently used one. -/
def get (c : RecencyList K V) (k : K) : Option V × RecencyList K V :=
  match c.entries.lookup k with
  | some v => (some v, { c with entries := (k, v) :: c.entries.filter fun e => e.1 ≠ k })
  | none => (none, c)

/-- Where the cache is full, the least recently used entry is dropped. -/
def put (c : RecencyList K V) (k : K) (v : V) : RecencyList K V :=
  { c with entries := ((k, v) :: c.entries.filter fun e => e.1 ≠ k).take c.capacity }

variable {c : RecencyList K V} {k : K} {v : V} {e : K × V}

theorem mem_of_lookup {l : List (K × V)} (h : l.lookup k = some v) : (k, v) ∈ l := by
  obtain ⟨l, r, hsplit, -⟩ := lookup_eq_some_iff.mp h
  rw [hsplit]
  exact mem_append_right _ mem_cons_self

theorem mem_of_get (h : (c.get k).1 = some v) : (k, v) ∈ c.entries := by
  unfold get at h
  split at h
  · next hlookup =>
    cases h
    exact mem_of_lookup hlookup
  · cases h

theorem get_of_none (h : (c.get k).1 = none) : (c.get k).2 = c := by
  unfold get at h ⊢
  split at h
  · cases h
  · rfl

theorem mem_entries_of_get (h : e ∈ (c.get k).2.entries) : e ∈ c.entries := by
  unfold get at h
  split at h
  · next hlookup =>
    rcases mem_cons.mp h with rfl | hold
    · exact mem_of_lookup hlookup
    · exact (mem_filter.mp hold).1
  · exact h

theorem mem_entries_of_put (h : e ∈ (c.put k v).entries) :
    e = (k, v) ∨ e ∈ c.entries ∧ e.1 ≠ k := by
  rcases mem_cons.mp (mem_of_mem_take h) with rfl | hold
  · exact .inl rfl
  · obtain ⟨hmem, hne⟩ := mem_filter.mp hold
    exact .inr ⟨hmem, of_decide_eq_true hne⟩

/-- The caches of this form obey the laws. -/
abbrev lru : Lru where
  Cache := RecencyList
  new capacity := ⟨capacity, []⟩
  get := get
  put := put
  eraseIf c p := { c with entries := c.entries.filter fun e => ¬ p e.1 }
  entries := entries
  entries_new _ := rfl
  mem_of_get := mem_of_get
  get_of_none := get_of_none
  mem_entries_of_get := mem_entries_of_get
  mem_entries_of_put := mem_entries_of_put
  mem_entries_eraseIf := by simp

end RecencyList
