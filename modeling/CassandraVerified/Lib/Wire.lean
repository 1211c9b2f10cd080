import Mathlib

/-!
# Fixed-width integers and byte strings on the wire

A reader returns what it read and the rest, or `none` when the bytes run out. For each writer there
is a lemma that the reader undoes it in front of any rest.
-/

namespace Wire

abbrev Bytes := List UInt8

variable {w n : ℕ} {bs rest : Bytes}

/-- The `w` big-endian bytes of `n`; what does not fit is cut off, as a narrowing cast does. -/
def beBytes : ℕ → ℕ → Bytes
  | 0, _ => []
  | w + 1, n => UInt8.ofNat (n / 256 ^ w) :: beBytes w n

def beNat (bs : Bytes) : ℕ := bs.foldl (fun acc b => 256 * acc + b.toNat) 0

@[simp] theorem length_beBytes (w n : ℕ) : (beBytes w n).length = w := by
  induction w with
  | zero => rfl
  | succ w ih => simp [beBytes, ih]

theorem foldl_beBytes (w n acc : ℕ) :
    (beBytes w n).foldl (fun acc b => 256 * acc + b.toNat) acc = 256 ^ w * acc + n % 256 ^ w := by
  induction w generalizing acc with
  | zero => simp [beBytes, Nat.mod_one]
  | succ w ih =>
    have hdigit : (UInt8.ofNat (n / 256 ^ w)).toNat = n / 256 ^ w % 256 := by simp
    have hmod : n % 256 ^ (w + 1) = n % 256 ^ w + 256 ^ w * (n / 256 ^ w % 256) := by
      rw [pow_succ, Nat.mod_mul]
    simp only [beBytes, List.foldl_cons, ih, hdigit, hmod]
    ring

theorem beNat_beBytes (w n : ℕ) : beNat (beBytes w n) = n % 256 ^ w := by
  simp [beNat, foldl_beBytes]

theorem beNat_beBytes_of_lt (h : n < 256 ^ w) : beNat (beBytes w n) = n := by
  rw [beNat_beBytes, Nat.mod_eq_of_lt h]

theorem foldl_lt (bs : Bytes) (acc : ℕ) :
    bs.foldl (fun acc b => 256 * acc + b.toNat) acc < 256 ^ bs.length * (acc + 1) := by
  induction bs generalizing acc with
  | nil => simp
  | cons b bs ih =>
    have hb : b.toNat < 256 := b.toNat_lt
    calc bs.foldl (fun acc b => 256 * acc + b.toNat) (256 * acc + b.toNat)
        < 256 ^ bs.length * (256 * acc + b.toNat + 1) := ih _
      _ ≤ 256 ^ bs.length * (256 * (acc + 1)) := Nat.mul_le_mul_left _ (by omega)
      _ = 256 ^ (b :: bs).length * (acc + 1) := by rw [List.length_cons]; ring

theorem beNat_lt (bs : Bytes) : beNat bs < 256 ^ bs.length := by
  simpa [beNat] using foldl_lt bs 0

theorem foldl_eq (bs : Bytes) (acc : ℕ) :
    bs.foldl (fun acc b => 256 * acc + b.toNat) acc = 256 ^ bs.length * acc + beNat bs := by
  induction bs generalizing acc with
  | nil => simp [beNat]
  | cons b bs ih =>
    rw [beNat, List.foldl_cons, List.foldl_cons, ih, ih, List.length_cons]
    ring

theorem beNat_cons (b : UInt8) (bs : Bytes) :
    beNat (b :: bs) = 256 ^ bs.length * b.toNat + beNat bs := by
  simpa [beNat] using foldl_eq bs b.toNat

def leBytes (w n : ℕ) : Bytes := (beBytes w n).reverse

def leNat (bs : Bytes) : ℕ := beNat bs.reverse

@[simp] theorem length_leBytes (w n : ℕ) : (leBytes w n).length = w := by
  simp [leBytes]

theorem leNat_leBytes_of_lt (h : n < 256 ^ w) : leNat (leBytes w n) = n := by
  simp [leNat, leBytes, beNat_beBytes_of_lt h]

def take (n : ℕ) (bs : Bytes) : Option (Bytes × Bytes) :=
  if n ≤ bs.length then some (bs.take n, bs.drop n) else none

def readLe (w : ℕ) (bs : Bytes) : Option (ℕ × Bytes) := (take w bs).map fun r => (leNat r.1, r.2)

def readBe (w : ℕ) (bs : Bytes) : Option (ℕ × Bytes) := (take w bs).map fun r => (beNat r.1, r.2)

def readByte : Bytes → Option (UInt8 × Bytes)
  | [] => none
  | b :: bs => some (b, bs)

theorem take_append (h : bs.length = n) (rest : Bytes) : take n (bs ++ rest) = some (bs, rest) := by
  simp [take, ← h]

theorem take_eq_none : take n bs = none ↔ bs.length < n := by
  simp [take]

theorem take_eq_some {a : Bytes} : take n bs = some (a, rest) ↔ bs = a ++ rest ∧ a.length = n := by
  constructor
  · intro h
    simp only [take, Option.ite_none_right_eq_some, Option.some.injEq, Prod.mk.injEq] at h
    obtain ⟨hle, rfl, rfl⟩ := h
    simp [hle]
  · rintro ⟨rfl, hlen⟩
    exact take_append hlen rest

theorem readBe_beBytes (w n : ℕ) (rest : Bytes) :
    readBe w (beBytes w n ++ rest) = some (n % 256 ^ w, rest) := by
  simp [readBe, take_append (length_beBytes w n), beNat_beBytes]

theorem readBe_beBytes_of_lt (h : n < 256 ^ w) (rest : Bytes) :
    readBe w (beBytes w n ++ rest) = some (n, rest) := by
  rw [readBe_beBytes, Nat.mod_eq_of_lt h]

theorem readLe_leBytes_of_lt (h : n < 256 ^ w) (rest : Bytes) :
    readLe w (leBytes w n ++ rest) = some (n, rest) := by
  simp [readLe, take_append (length_leBytes w n), leNat_leBytes_of_lt h]

theorem readLe_eq_none : readLe w bs = none ↔ bs.length < w := by
  simp [readLe, take_eq_none]

theorem readBe_eq_none : readBe w bs = none ↔ bs.length < w := by
  rw [readBe, Option.map_eq_none_iff, take_eq_none]

theorem length_of_readBe (h : readBe w bs = some (n, rest)) : bs.length = w + rest.length := by
  simp only [readBe, Option.map_eq_some_iff] at h
  obtain ⟨⟨a, rest'⟩, ha, heq⟩ := h
  obtain ⟨rfl, hlen⟩ := take_eq_some.mp ha
  obtain ⟨-, rfl⟩ : beNat a = n ∧ rest' = rest := by simpa using heq
  simp [hlen]

theorem lt_of_readBe (h : readBe w bs = some (n, rest)) : n < 256 ^ w := by
  simp only [readBe, Option.map_eq_some_iff] at h
  obtain ⟨⟨a, rest'⟩, ha, heq⟩ := h
  obtain ⟨rfl, -⟩ : beNat a = n ∧ rest' = rest := by simpa using heq
  exact (take_eq_some.mp ha).2 ▸ beNat_lt a

theorem length_of_take {a : Bytes} (h : take n bs = some (a, rest)) :
    bs.length = n + rest.length := by
  obtain ⟨rfl, hlen⟩ := take_eq_some.mp h
  simp [hlen]

end Wire
