import Mathlib

/-!
# Computations that are checked while they run

A run ends with a result, with an error, or with a panic, and records what it asked the allocator
for. `Safe` says that it does not panic and asks for nothing above a limit; a sequence of runs is
safe iff each of them is, as far as the sequence gets.
-/

namespace Checked

/-- What a computation comes to: a value, an error or a panic. -/
inductive Outcome (ε α : Type)
  | ok (a : α)
  | err (e : ε)
  | panic
deriving Repr, DecidableEq

/-- A run: the numbers of elements it requested, and how it ended. -/
structure Run (ε α : Type) where
  requests : List ℕ
  outcome : Outcome ε α
deriving Repr, DecidableEq

variable {ε α β : Type}

namespace Run

def fail (e : ε) : Run ε α := ⟨[], .err e⟩

def panic : Run ε α := ⟨[], .panic⟩

instance : Monad (Run ε) where
  pure a := ⟨[], .ok a⟩
  bind x f :=
    match x.outcome with
    | .ok a => ⟨x.requests ++ (f a).requests, (f a).outcome⟩
    | .err e => ⟨x.requests, .err e⟩
    | .panic => ⟨x.requests, .panic⟩

instance : LawfulMonad (Run ε) := .mk' _ (by rintro α ⟨requests, _ | _ | _⟩ <;> simp [Functor.map])
  (by intro α β a f; simp [bind, pure])
  (by
    rintro α β γ ⟨requests, a | e | _⟩ f g
    · rcases h : (f a).outcome <;> simp [bind, h]
    · rfl
    · rfl)

/-- `Vec::with_capacity` for `n` elements of at least one byte. -/
def allocate (n : ℕ) : Run ε Unit := ⟨[n], if n < 2 ^ 63 then .ok () else .panic⟩

def addUsize (a b : ℕ) : Run ε ℕ := if a + b < 2 ^ 64 then pure (a + b) else panic

def mulU32 (a b : ℕ) : Run ε ℕ := if a * b < 2 ^ 32 then pure (a * b) else panic

def sliceFrom (xs : List α) (start : ℕ) : Run ε (List α) :=
  if start ≤ xs.length then pure (xs.drop start) else panic

def slice (xs : List α) (start stop : ℕ) : Run ε (List α) :=
  if start ≤ stop ∧ stop ≤ xs.length then pure ((xs.take stop).drop start) else panic

@[simp] theorem outcome_pure (a : α) : (pure a : Run ε α).outcome = .ok a := rfl

@[simp] theorem outcome_fail (e : ε) : (fail e : Run ε α).outcome = .err e := rfl

variable {x : Run ε α} {f : α → Run ε β}

theorem outcome_bind_eq_ok {b : β} :
    (x >>= f).outcome = .ok b ↔ ∃ a, x.outcome = .ok a ∧ (f a).outcome = .ok b := by
  obtain ⟨requests, outcome⟩ := x
  cases outcome <;> simp [bind]

theorem outcome_bind_of_ok {a : α} (hx : x.outcome = .ok a) :
    (x >>= f).outcome = (f a).outcome := by
  obtain ⟨requests, outcome⟩ := x
  subst hx
  rfl

@[simp] theorem fail_bind (e : ε) (f : α → Run ε β) : (fail e : Run ε α) >>= f = fail e := rfl

@[simp] theorem map_fail (e : ε) (f : α → β) : f <$> (fail e : Run ε α) = fail e := rfl

@[simp] theorem outcome_map_eq_ok {f : α → β} {b : β} :
    (f <$> x).outcome = .ok b ↔ ∃ a, x.outcome = .ok a ∧ f a = b := by
  rw [map_eq_pure_bind, outcome_bind_eq_ok]
  simp

theorem outcome_allocate_of_lt {n : ℕ} (hn : n < 2 ^ 63) :
    (allocate n : Run ε Unit).outcome = .ok () :=
  if_pos hn

theorem addUsize_of_lt {a b : ℕ} (h : a + b < 2 ^ 64) : (addUsize a b : Run ε ℕ) = pure (a + b) :=
  if_pos h

theorem sliceFrom_of_le {xs : List α} {start : ℕ} (h : start ≤ xs.length) :
    (sliceFrom xs start : Run ε (List α)) = pure (xs.drop start) :=
  if_pos h

theorem slice_of_le {xs : List α} {start stop : ℕ} (hstart : start ≤ stop)
    (hstop : stop ≤ xs.length) :
    (slice xs start stop : Run ε (List α)) = pure ((xs.take stop).drop start) :=
  if_pos ⟨hstart, hstop⟩

/-- The run does not panic and requests nothing above the limit. -/
def Safe (limit : ℕ) (x : Run ε α) : Prop := x.outcome ≠ .panic ∧ ∀ n ∈ x.requests, n ≤ limit

instance [DecidableEq ε] [DecidableEq α] (limit : ℕ) (x : Run ε α) : Decidable (x.Safe limit) :=
  inferInstanceAs (Decidable (_ ∧ _))

variable {limit : ℕ}

@[simp] theorem safe_pure (a : α) : (pure a : Run ε α).Safe limit := ⟨nofun, nofun⟩

@[simp] theorem safe_fail (e : ε) : (fail e : Run ε α).Safe limit := ⟨nofun, nofun⟩

@[simp] theorem not_safe_panic : ¬ (panic : Run ε α).Safe limit := fun h => h.1 rfl

theorem safe_bind :
    (x >>= f).Safe limit ↔ x.Safe limit ∧ ∀ a, x.outcome = .ok a → (f a).Safe limit := by
  obtain ⟨requests, outcome⟩ := x
  cases outcome with
  | ok a =>
    simp only [Safe, bind, List.mem_append, Outcome.ok.injEq, forall_eq']
    grind
  | err e => simp [Safe, bind]
  | panic => simp [Safe, bind]

@[simp] theorem safe_map {f : α → β} : (f <$> x).Safe limit ↔ x.Safe limit := by
  rw [map_eq_pure_bind, safe_bind]
  simp

theorem safe_allocate {n : ℕ} : (allocate n : Run ε Unit).Safe limit ↔ n < 2 ^ 63 ∧ n ≤ limit := by
  simp only [Safe, allocate, List.mem_singleton, forall_eq]
  split <;> simp_all

theorem safe_mulU32 {a b : ℕ} : (mulU32 a b : Run ε ℕ).Safe limit ↔ a * b < 2 ^ 32 := by
  unfold mulU32
  split <;> simp_all

end Run

end Checked
