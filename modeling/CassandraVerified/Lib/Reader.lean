import CassandraVerified.Lib.Wire

/-!
# Readers of byte streams

A reader takes bytes off the front of what is left and may fail. Formats are read by chaining
readers in `do` blocks and by `loop`, which repeats a step until it says that it is done.

`Reads r bs a` says that `r` undoes the writing of `a` as `bs`, whatever follows. The rules below
prove it along the structure of a reader. `Spends r Q` relates what a reader returns to the number
of bytes that it takes, whatever the bytes are.
-/

namespace Wire

open List

variable {i rest : Bytes} {n : ℕ}

variable {ε α β σ : Type}

abbrev Reader (ε : Type) := StateT Bytes (Except ε)

namespace Reader

/-- Reads exactly `n` bytes; `eof` is the error of a stream that ends before. -/
def take (eof : ε) (n : ℕ) : Reader ε Bytes := fun bs =>
  match Wire.take n bs with
  | some r => .ok r
  | none => .error eof

def be (eof : ε) (w : ℕ) : Reader ε ℕ := fun bs =>
  match readBe w bs with
  | some r => .ok r
  | none => .error eof

def byte (eof : ε) : Reader ε UInt8 := fun bs =>
  match readByte bs with
  | some r => .ok r
  | none => .error eof

def times (r : Reader ε α) : ℕ → Reader ε (List α)
  | 0 => pure []
  | n + 1 => do
    let a ← r
    let as ← times r n
    pure (a :: as)

def loopN (eof : ε) (step : σ → Reader ε (σ ⊕ β)) : ℕ → σ → Reader ε β
  | 0, _ => throw eof
  | n + 1, s => do
    match ← step s with
    | .inl s' => loopN eof step n s'
    | .inr b => pure b

/-- Repeats a step until it is done. Every step but the last takes a byte, so there is at most one
more than bytes. -/
def loop (eof : ε) (step : σ → Reader ε (σ ⊕ β)) (s : σ) : Reader ε β := do
  let bs ← get
  loopN eof step (bs.length + 1) s

variable {f : α → Reader ε β} {step : σ → Reader ε (σ ⊕ β)}

theorem run_bind_of_ok {r : Reader ε α} {m : Bytes} {a : α}
    (h : r.run i = .ok (a, m)) : (r >>= f).run i = (f a).run m := by
  rw [StateT.run_bind, h]
  rfl

theorem exists_of_run_bind {r : Reader ε α} {b : β}
    (h : (r >>= f).run i = .ok (b, rest)) :
    ∃ a m, r.run i = .ok (a, m) ∧ (f a).run m = .ok (b, rest) := by
  rw [StateT.run_bind] at h
  cases hr : r.run i with
  | error e => rw [hr] at h; cases h
  | ok x => rw [hr] at h; exact ⟨x.1, x.2, rfl, h⟩

theorem run_pure {a : α} : (pure a : Reader ε α).run i = .ok (a, i) := rfl

/-- The steps of a loop that comes to an end. -/
inductive LoopRun (step : σ → Reader ε (σ ⊕ β)) : σ → Bytes → β → Bytes → Prop
  | done {s : σ} {i : Bytes} {b : β} {rest : Bytes} (h : (step s).run i = .ok (.inr b, rest)) :
      LoopRun step s i b rest
  | next {s s' : σ} {i m : Bytes} {b : β} {rest : Bytes} (h : (step s).run i = .ok (.inl s', m))
      (hlen : m.length < i.length) (hrest : LoopRun step s' m b rest) : LoopRun step s i b rest

theorem LoopRun.run_loopN {eof : ε} {s : σ} {b : β} (h : LoopRun step s i b rest)
    (hn : i.length < n) :
    (loopN eof step n s).run i = .ok (b, rest) := by
  induction h generalizing n with
  | done hstep =>
    cases n with
    | zero => omega
    | succ n => rw [loopN, run_bind_of_ok hstep, run_pure]
  | next hstep hlen _ ih =>
    cases n with
    | zero => omega
    | succ n =>
      rw [loopN, run_bind_of_ok hstep]
      exact ih (by omega)

theorem LoopRun.run {s : σ} {b : β} (h : LoopRun step s i b rest) (eof : ε) :
    (loop eof step s).run i = .ok (b, rest) :=
  h.run_loopN (Nat.lt_succ_self _)

/-! ## Reading what was written -/

/-- The reader takes off `bs` and returns `a`, whatever follows. -/
def Reads (r : Reader ε α) (bs : Bytes) (a : α) : Prop := ∀ rest, r.run (bs ++ rest) = .ok (a, rest)

namespace Reads

theorem pure (a : α) : Reads (pure a : Reader ε α) [] a := fun _ => rfl

variable {r : Reader ε α} {write : α → Bytes}

theorem bind {bs bs' : Bytes} {a : α} {b : β} (h : Reads r bs a)
    (h' : Reads (f a) bs' b) : Reads (r >>= f) (bs ++ bs') b := fun rest => by
  rw [append_assoc, run_bind_of_ok (h _), h' rest]

theorem bind_pure {f : α → β} {bs : Bytes} {a : α} (h : Reads r bs a) :
    Reads (do let x ← r; Pure.pure (f x)) bs (f a) := fun rest => by
  rw [run_bind_of_ok (h _), run_pure]

theorem take (eof : ε) (bs : Bytes) : Reads (Reader.take eof bs.length) bs bs := fun rest => by
  rw [StateT.run, Reader.take, take_append rfl]

theorem be_mod (eof : ε) (w n : ℕ) : Reads (Reader.be eof w) (beBytes w n) (n % 256 ^ w) :=
  fun rest => by rw [StateT.run, Reader.be, readBe_beBytes]

theorem be (eof : ε) {w : ℕ} (h : n < 256 ^ w) : Reads (Reader.be eof w) (beBytes w n) n := by
  have hread := be_mod eof w n
  rwa [Nat.mod_eq_of_lt h] at hread

theorem byte (eof : ε) (b : UInt8) : Reads (Reader.byte eof) [b] b := fun _ => rfl

/-- Things written one after the other are read one after the other. -/
theorem times_map {r : Reader ε β} {f : α → β} {as : List α}
    (h : ∀ a ∈ as, Reads r (write a) (f a)) :
    Reads (Reader.times r as.length) (as.flatMap write) (as.map f) := by
  induction as with
  | nil => exact Reads.pure []
  | cons a as ih =>
    refine (h a mem_cons_self).bind ?_
    exact (ih fun b hb => h b (mem_cons_of_mem _ hb)).bind_pure

theorem times {as : List α}
    (h : ∀ a ∈ as, Reads r (write a) a) :
    Reads (Reader.times r as.length) (as.flatMap write) as := by
  have hread := times_map (f := id) h
  rwa [map_id] at hread

end Reads

namespace LoopRun

variable {s s' : σ} {bs m : Bytes} {b : β}

theorem done_of_reads (h : Reads (step s) bs (.inr b)) : LoopRun step s (bs ++ rest) b rest :=
  .done (h rest)

theorem next_of_reads (h : Reads (step s) bs (.inl s')) (hne : bs ≠ [])
    (hrest : LoopRun step s' m b rest) : LoopRun step s (bs ++ m) b rest := by
  have hlen := length_pos_of_ne_nil hne
  exact .next (h m) (by rw [length_append]; omega) hrest

/-- Steps that each read one thing go through a list of them. -/
theorem foldl_of_reads {write : α → Bytes} {next : σ → α → σ} {as : List α}
    (h : ∀ s, ∀ a ∈ as, Reads (step s) (write a) (.inl (next s a))) (hne : ∀ a ∈ as, write a ≠ [])
    (hrest : LoopRun step (as.foldl next s) m b rest) :
    LoopRun step s (as.flatMap write ++ m) b rest := by
  induction as generalizing s with
  | nil => exact hrest
  | cons a as ih =>
    rw [flatMap_cons, append_assoc]
    refine next_of_reads (h s a mem_cons_self) (hne a mem_cons_self) ?_
    exact ih (fun s b hb => h s b (mem_cons_of_mem _ hb))
      (fun b hb => hne b (mem_cons_of_mem _ hb)) hrest

end LoopRun

/-! ## What a reader takes -/

/-- Whenever the reader returns `a` it has taken `n` bytes with `Q a n`. -/
def Spends (r : Reader ε α) (Q : α → ℕ → Prop) : Prop :=
  ∀ i a rest, r.run i = .ok (a, rest) → ∃ n, i.length = n + rest.length ∧ Q a n

namespace Spends

variable {r : Reader ε α} {P Q : α → ℕ → Prop} {R : β → ℕ → Prop}

theorem mono (h : Spends r P) (hPQ : ∀ a n, P a n → Q a n) : Spends r Q := by
  intro i a rest hrun
  obtain ⟨n, hlen, hP⟩ := h i a rest hrun
  exact ⟨n, hlen, hPQ a n hP⟩

theorem pure {a : α} (h : Q a 0) : Spends (Pure.pure a : Reader ε α) Q := by
  intro i b rest hrun
  cases hrun
  exact ⟨0, by omega, h⟩

theorem throw (e : ε) : Spends (MonadExcept.throw e : Reader ε α) Q := by
  intro i a rest hrun
  cases hrun

theorem bind (h : Spends r P) (hf : ∀ a n, P a n → Spends (f a) fun b m => R b (n + m)) :
    Spends (r >>= f) R := by
  intro i b rest hrun
  obtain ⟨a, m, hr, hfa⟩ := exists_of_run_bind hrun
  obtain ⟨n, hn, hP⟩ := h i a m hr
  obtain ⟨k, hk, hR⟩ := hf a n hP m b rest hfa
  exact ⟨n + k, by omega, hR⟩

theorem bind_pure {g : α → β} (h : Spends r P) (hg : ∀ a n, P a n → R (g a) n) :
    Spends (do let a ← r; Pure.pure (g a)) R :=
  h.bind fun a n hP => Spends.pure (hg a n hP)

theorem take (eof : ε) (n : ℕ) : Spends (Reader.take eof n) fun bs m => bs.length = n ∧ m = n := by
  intro i bs rest hrun
  change Reader.take eof n i = _ at hrun
  unfold Reader.take at hrun
  split at hrun
  · next r hr =>
    cases hrun
    obtain ⟨rfl, hlen⟩ := take_eq_some.mp hr
    exact ⟨n, by rw [length_append, hlen], hlen, rfl⟩
  · cases hrun

theorem be (eof : ε) (w : ℕ) : Spends (Reader.be eof w) fun n m => n < 256 ^ w ∧ m = w := by
  intro i n rest hrun
  change Reader.be eof w i = _ at hrun
  unfold Reader.be at hrun
  split at hrun
  · next r hr =>
    cases hrun
    exact ⟨w, length_of_readBe hr, lt_of_readBe hr, rfl⟩
  · cases hrun

theorem byte (eof : ε) : Spends (Reader.byte eof) fun _ m => m = 1 := by
  intro i b rest hrun
  cases i with
  | nil => cases hrun
  | cons b i =>
    cases hrun
    exact ⟨1, by rw [length_cons]; omega, rfl⟩

/-- The things that are read have taken `w` bytes each. -/
theorem times {F : α → Prop} {w : α → ℕ} (h : Spends r fun a m => F a ∧ m = w a) (n : ℕ) :
    Spends (Reader.times r n) fun as m =>
      as.length = n ∧ (∀ a ∈ as, F a) ∧ m = (as.map w).sum := by
  induction n with
  | zero => exact Spends.pure ⟨rfl, by simp, rfl⟩
  | succ n ih =>
    refine h.bind fun a k ha => ih.bind_pure fun as m has => ?_
    obtain ⟨hF, rfl⟩ := ha
    obtain ⟨hlen, hall, rfl⟩ := has
    exact ⟨by rw [length_cons, hlen], forall_mem_cons.mpr ⟨hF, hall⟩, by rw [map_cons, sum_cons]⟩

section

variable {eof : ε} {I : σ → ℕ → Prop}
  (hstep : ∀ s n, I s n → Spends (step s) fun x m =>
    Sum.elim (fun s' => I s' (n + m)) (fun b => R b (n + m)) x)
  {s : σ}

include hstep

theorem loopN (fuel : ℕ) (h : I s n)
    : Spends (Reader.loopN eof step fuel s) fun b m => R b (n + m) := by
  induction fuel generalizing s n with
  | zero => exact Spends.throw eof
  | succ fuel ih =>
    refine (hstep s n h).bind fun x m hx => ?_
    cases x with
    | inl s' => exact (ih hx).mono fun b k hR => by rwa [← Nat.add_assoc]
    | inr b => exact Spends.pure hx

/-- A loop keeps an invariant of its state and of the bytes taken so far. -/
theorem loop (h : I s 0) :
    Spends (Reader.loop eof step s) R := by
  intro i b rest hrun
  have hloop : (Reader.loopN eof step (i.length + 1) s).run i = .ok (b, rest) := hrun
  obtain ⟨n, hlen, hR⟩ := loopN hstep _ h i b rest hloop
  exact ⟨n, hlen, by rwa [Nat.zero_add] at hR⟩

end

end Spends

end Reader

end Wire
