import CassandraVerified.Types.TypeParser

/-!
# Marshal type names are parsed
-/

namespace CassandraVerified.Types

/-- Letters and digits are classified as in ASCII. -/
theorem isAlphanumeric_of_isAlphanum (unicode : CharClass) {c : Char} (h : c.isAlphanum = true) :
    unicode.isAlphanumeric c = true ∧ unicode.isWhitespace c = false := by
  have hrange : 48 ≤ c.toNat ∧ c.toNat < 128 := by
    simp only [Char.isAlphanum, Char.isAlpha, Char.isUpper, Char.isLower, Char.isDigit,
      Bool.or_eq_true, Bool.and_eq_true, decide_eq_true_eq, UInt32.le_iff_toNat_le] at h
    have hval : c.toNat = c.val.toNat := rfl
    simp at h
    omega
  rw [unicode.isAlphanumeric_of_ascii c hrange.2, unicode.isWhitespace_of_ascii c hrange.2]
  refine ⟨h, decide_eq_false ?_⟩
  rintro (rfl | h)
  · exact absurd hrange.1 (by decide)
  · omega

/-- The characters of a type name. -/
def isNameChar (unicode : CharClass) (c : Char) : Bool :=
  unicode.isAlphanumeric c || c = '.' || c = '_' || c = '-'

theorem run_readToken {inside : Char → Bool} {token rest : List Char} (hne : token ≠ [])
    (htoken : ∀ c ∈ token, inside c = true) (hrest : ∀ c ∈ rest.head?, inside c = false) :
    (Parser.readToken inside).run (token ++ rest) = .ok (token, rest) := by
  have htake : (token ++ rest).takeWhile inside = token := by
    rw [List.takeWhile_append_of_pos htoken]
    cases rest with
    | nil => simp
    | cons c rest => simp [hrest c rfl]
  have hdrop : (token ++ rest).dropWhile inside = rest := by
    rw [List.dropWhile_append_of_pos htoken]
    cases rest with
    | nil => simp
    | cons c rest => simp [hrest c rfl]
  simp only [Parser.readToken, StateT.run_bind, StateT.run_get, pure_bind]
  rw [htake, if_neg hne, hdrop]
  rfl

theorem run_parseType_simple (unicode : CharClass) (fuel : Nat) {name : List Char} (hne : name ≠ [])
    (hname : ∀ c ∈ name, isNameChar unicode c = true) :
    (Parser.parseType unicode (fuel + 1)).run name =
      (mapSimpleName (String.ofList (stripPackage name))).map (·, []) := by
  have hread : (Parser.readTypeName unicode).run (name ++ []) = .ok (name, []) :=
    run_readToken hne hname (by simp)
  rw [List.append_nil] at hread
  rw [Parser.parseType]
  have hbind {α β : Type} (a : α) (f : α → Except ParseError β) : (Except.ok a >>= f) = f a := rfl
  have hpeek : StateT.run Parser.peek [] = .ok (none, []) := rfl
  simp only [StateT.run_bind, hread, hbind, hpeek, reduceCtorEq, if_false]
  cases mapSimpleName (String.ofList (stripPackage name)) <;> rfl

/-- A name of letters and digits only is looked up as it is. -/
theorem parseType_of_isAlphanum (unicode : CharClass) {name : String} (hne : name.toList ≠ [])
    (hname : ∀ c ∈ name.toList, c.isAlphanum = true) :
    parseType unicode name = mapSimpleName (String.ofList (stripPackage name.toList)) := by
  have hclass c hc := isAlphanumeric_of_isAlphanum unicode (hname c hc)
  have htrim : (name.toList.dropWhile unicode.isWhitespace).rdropWhile unicode.isWhitespace =
      name.toList := by
    rw [List.dropWhile_eq_self_iff.mpr, List.rdropWhile_eq_self_iff.mpr]
    · intro hl
      simpa using (hclass _ (List.getLast_mem hl)).2
    · intro hl
      simpa using (hclass _ (List.getElem_mem hl)).2
  have hchars : ∀ c ∈ name.toList, isNameChar unicode c = true := by
    intro c hc
    simp [isNameChar, (hclass c hc).1]
  have hrun (fuel : Nat) := run_parseType_simple unicode fuel hne hchars
  simp only [parseType, htrim, hne, if_false, hrun]
  cases mapSimpleName (String.ofList (stripPackage name.toList)) <;> rfl

theorem parseType_bytesType (unicode : CharClass) : parseType unicode "BytesType" = .ok .blob := by
  have hchars : "BytesType".toList = ['B', 'y', 't', 'e', 's', 'T', 'y', 'p', 'e'] := rfl
  exact parseType_of_isAlphanum unicode (by simp [hchars]) (by simp [hchars, Char.isAlphanum])

end CassandraVerified.Types
