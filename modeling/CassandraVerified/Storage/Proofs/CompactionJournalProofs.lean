import CassandraVerified.Storage.CompactionJournal
import Mathlib.Tactic.DeriveEncodable

/-!
# Proofs: the compaction journal

A replay goes line by line, so that it is known for whole lines and for what comes behind them. In a
run in which no append comes behind a line that breaks off, the file is whole lines with one more
record behind them, of which a crash may have cut off a part.
-/

namespace CassandraVerified.Storage

open List

namespace Journal

variable {codec : JournalCodec}

theorem replay_append_newline (front rest : Wire.Bytes) :
    replay codec (front ++ newline :: rest) = replay codec front ++ replay codec rest := by
  simp [replay, lines, splitOn_append_cons_self]

theorem replay_line {line : Wire.Bytes} (h : newline ∉ line) {r : Option JournalRecord}
    (hparse : parse codec line = r) :
    replay codec line = ((r.filter fun r => codec.crc32 (codec.entryJson r.entry) = r.crc32).map
        JournalRecord.entry).toList := by
  rw [replay, lines, splitOn_eq_singleton h, filterMap_cons, hparse]
  cases r.filter fun r => codec.crc32 (codec.entryJson r.entry) = r.crc32 <;> rfl

theorem replay_encode (sequence : Nat) (entry : JournalEntry) :
    replay codec (codec.encode (record codec sequence entry)) = [entry] := by
  have hparse : parse codec (codec.encode (record codec sequence entry)) =
      some (record codec sequence entry) := by
    simp [parse, codec.isBlank_encode, codec.decode_encode]
  rw [replay_line (codec.newline_notMem _) hparse]
  simp [record]

theorem parse_of_decode {line : Wire.Bytes} (h : codec.decode line = none) :
    parse codec line = none := by
  unfold parse
  split
  · rfl
  · exact h

theorem replay_take (r : JournalRecord) {n : Nat} (h : n < (codec.encode r).length) :
    replay codec ((codec.encode r).take n) = [] := by
  rw [replay_line (fun hmem => codec.newline_notMem r (mem_of_mem_take hmem))
    (parse_of_decode (codec.decode_take r n h))]
  rfl

theorem encode_length_pos (r : JournalRecord) : 0 < (codec.encode r).length := by
  rw [length_pos_iff]
  intro hnil
  have hblank := codec.isBlank_encode r
  rw [hnil] at hblank
  cases hblank

theorem replay_nil : replay codec [] = [] :=
  replay_take (record codec 1 (.add 0)) (encode_length_pos _)

/-- An entry behind a record that breaks off is not replayed. -/
theorem replay_append_torn (r : JournalRecord) {n : Nat} (h : (codec.encode r).take n ≠ [])
    (sequence : Nat) (entry : JournalEntry) :
    replay codec (append codec ((codec.encode r).take n) sequence entry) = [] := by
  have hmem : newline ∉ (codec.encode r).take n ++ codec.encode (record codec sequence entry) := by
    rw [mem_append]
    rintro (hmem | hmem)
    · exact codec.newline_notMem r (mem_of_mem_take hmem)
    · exact codec.newline_notMem _ hmem
  rw [append, replay_append_newline, replay_nil,
    replay_line hmem (parse_of_decode (codec.decode_append r n _ h))]
  rfl

end Journal

namespace JournalRun

open Journal

variable (codec : JournalCodec)

/-- What is left of the last record. -/
inductive Tail (s : JournalRun) : Wire.Bytes → Prop
  | whole {entry : JournalEntry} {sequence : Nat} {rest : Wire.Bytes} (hlast : s.last = some entry)
      (hstop : s.stop = s.start + (codec.encode (Journal.record codec sequence entry)).length)
      (hrest : rest = [] ∨ rest = [newline]) :
      Tail s (codec.encode (Journal.record codec sequence entry) ++ rest)
  | torn {r : JournalRecord} {n : Nat} (hlast : s.last = none) (hn : n < (codec.encode r).length) :
      Tail s ((codec.encode r).take n)

/-- Whole lines, and the last record behind them. -/
structure Sound (s : JournalRun) : Prop where
  exists_tail : ∃ front tail, s.file = front ++ tail ∧ s.start = front.length ∧
    (∀ rest, replay codec (front ++ rest) = s.settled ++ replay codec rest) ∧ Tail codec s tail

variable {codec} {s : JournalRun}

theorem sound_create : Sound codec {} := ⟨[], [], rfl, rfl, fun _ => rfl,
    .torn (r := Journal.record codec 1 (.add 0)) (n := 0) rfl (encode_length_pos _)⟩

theorem Sound.replay_eq (h : Sound codec s) : replay codec s.file = s.survivors := by
  obtain ⟨front, tail, hfile, -, hfront, htail⟩ := h
  rw [hfile, hfront, survivors]
  cases htail with
  | whole hlast _ hrest =>
    rcases hrest with rfl | rfl
    · rw [append_nil, replay_encode, hlast, Option.toList_some]
    · rw [replay_append_newline, replay_encode, replay_nil, hlast, Option.toList_some,
        append_nil]
  | torn hlast hn => rw [replay_take _ hn, hlast, Option.toList_none]

/-- At the start of a line, the last record is whole or gone altogether. -/
theorem Tail.replay_append {tail front : Wire.Bytes} (h : Tail codec s tail)
    (hline : (front ++ tail).getLast? ∈ [none, some newline]) (rest : Wire.Bytes) :
    replay codec (tail ++ rest) = s.last.toList ++ replay codec rest := by
  -- A text has no line break, so that a text at the end of the file leaves it inside a line.
  have hinside : ∀ {text : Wire.Bytes}, newline ∉ text → text ≠ [] →
      (front ++ text).getLast? ∉ [none, some newline] := by
    intro text hmem hne hlast
    rw [List.getLast?_append_of_ne_nil _ hne, List.getLast?_eq_some_getLast hne] at hlast
    simp only [mem_cons, reduceCtorEq, Option.some.injEq, not_mem_nil, or_false, false_or] at hlast
    exact hmem (hlast ▸ getLast_mem hne)
  cases h with
  | @whole entry sequence _ hlast _ hrest =>
    rcases hrest with rfl | rfl
    · rw [append_nil] at hline
      exact absurd hline
        (hinside (codec.newline_notMem _) (length_pos_iff.mp (encode_length_pos _)))
    · rw [append_assoc, singleton_append, replay_append_newline, replay_encode, hlast,
        Option.toList_some]
  | @torn r n hlast _ =>
    by_cases hnil : (codec.encode r).take n = []
    · rw [hnil, hlast, Option.toList_none]
      rfl
    · exact absurd hline
        (hinside (fun hmem => codec.newline_notMem r (mem_of_mem_take hmem)) hnil)

theorem Sound.append (h : Sound codec s) (hline : s.AtLineStart) (entry : JournalEntry) :
    Sound codec (s.step codec (.append entry)) := by
  obtain ⟨front, tail, hfile, hstart, hfront, htail⟩ := h
  unfold step
  cases hnext : s.next with
  | none => exact ⟨front, tail, hfile, hstart, hfront, htail⟩
  | some sequence =>
    refine ⟨s.file, codec.encode (Journal.record codec sequence entry) ++ [newline], ?_, rfl,
      fun rest => ?_, .whole rfl rfl (.inr rfl)⟩
    · exact append_assoc _ _ _
    · rw [AtLineStart, hfile] at hline
      rw [hfile, append_assoc, hfront, htail.replay_append hline, append_assoc]

theorem Sound.crash (h : Sound codec s) (keep : Nat) :
    Sound codec (s.step codec (.crash keep)) := by
  obtain ⟨front, tail, hfile, hstart, hfront, htail⟩ := h
  refine ⟨front, tail.take keep, ?_, hstart, hfront, ?_⟩
  · show s.file.take (s.start + keep) = _
    rw [hfile, hstart, take_length_add_append]
  · cases htail with
    | @whole entry sequence rest hlast hstop hrest =>
      by_cases hkeep : (codec.encode (Journal.record codec sequence entry)).length ≤ keep
      · rw [take_append, take_of_length_le hkeep]
        refine .whole ?_ hstop ?_
        · simp only [step, hstop]
          rw [if_pos (by omega), hlast]
        · rcases hrest with rfl | rfl
          · exact .inl take_nil
          · cases keep - (codec.encode (Journal.record codec sequence entry)).length with
            | zero => exact .inl rfl
            | succ n => exact .inr (by simp)
      · rw [take_append_of_le_length (by omega)]
        refine .torn ?_ (by omega)
        simp only [step, hstop]
        rw [if_neg (by omega)]
    | torn hlast hn =>
      rw [take_take]
      refine .torn ?_ (lt_of_le_of_lt (min_le_right _ _) hn)
      simp only [step, hlast]
      split <;> rfl

theorem Sound.run (events : List JournalEvent) (h : Sound codec s) (hwhole : s.Whole codec events) :
    Sound codec (events.foldl (step codec) s) := by
  induction events generalizing s with
  | nil => exact h
  | cons event events ih =>
    cases event with
    | append entry => exact ih (h.append hwhole.1 entry) hwhole.2
    | crash keep => exact ih (h.crash keep) hwhole
    | reopen =>
      obtain ⟨front, tail, hfile, hstart, hfront, htail⟩ := h
      refine ih ⟨front, tail, hfile, hstart, hfront, ?_⟩ hwhole
      cases htail with
      | whole hlast hstop hrest => exact .whole hlast hstop hrest
      | torn hlast hn => exact .torn hlast hn

/-- If no append comes behind a line that breaks off, a replay returns the entries that are
completely written, in order. -/
theorem replay_run {events : List JournalEvent} (h : Whole codec {} events) :
    replay codec (run codec events).file = (run codec events).survivors :=
  (sound_create.run events h).replay_eq

/-- A second record is lost in a crash; the journal is opened again, a third one is appended, and of
a fourth one only a byte is left. -/
def reopened (a b c d : JournalEntry) : List JournalEvent :=
  [.append a, .append b, .crash 0, .reopen, .append c, .append d, .crash 1]

theorem whole_reopened (a b c d : JournalEntry) : Whole codec {} (reopened a b c d) := by
  simp [reopened, Whole, AtLineStart, step, append, take_length_add_append, getLast?_cons]

theorem survivors_reopened {a b c d : JournalEntry} (h : ∀ r, 2 ≤ (codec.encode r).length) :
    (run codec (reopened a b c d)).survivors = [a, c] := by
  have hlost (r : JournalRecord) (n : Nat) : ¬ n + (codec.encode r).length ≤ n := by
    have := h r
    omega
  have htorn (r : JournalRecord) (n : Nat) : ¬ n + (codec.encode r).length ≤ n + 1 := by
    have := h r
    omega
  simp [run, reopened, step, survivors, hlost, htorn]

/-- An entry that is appended behind a torn record is lost. -/
theorem lost_behind_torn {a b : JournalEntry}
    (h : 2 ≤ (codec.encode (Journal.record codec 1 a)).length) :
    replay codec (run codec [.append a, .crash 1, .reopen, .append b]).file = [] ∧
      (run codec [.append a, .crash 1, .reopen, .append b]).survivors = [b] := by
  have htake : (append codec [] 1 a).take (0 + 1) =
      (codec.encode (Journal.record codec 1 a)).take 1 := by
    rw [append, nil_append, take_append_of_le_length (by omega)]
  have hne : (codec.encode (Journal.record codec 1 a)).take 1 ≠ [] := by
    rw [← length_pos_iff, length_take]
    omega
  simp only [run, foldl_cons, foldl_nil, step, survivors, length_nil]
  constructor
  · rw [htake]
    exact replay_append_torn _ hne _ _
  · rw [if_neg (by omega)]
    rfl

deriving instance Encodable for JournalEntry

def number (r : JournalRecord) : Nat := Encodable.encode (r.sequence, r.entry, r.crc32.toNat)

def ofNumber (n : Nat) : Option JournalRecord :=
  (Encodable.decode n).map fun t : Nat × JournalEntry × Nat => ⟨t.1, t.2.1, UInt32.ofNat t.2.2⟩

/-- An opening brace, as many ones as the number of the record, and a closing brace. -/
def braced (n : Nat) : Wire.Bytes := 123 :: (List.replicate n 49 ++ [125])

/-- Braces around the number of a record in unary. -/
def unaryCodec : JournalCodec where
  entryJson _ := []
  crc32 _ := 0
  encode r := braced (number r)
  decode bs := if bs = braced (bs.length - 2) then ofNumber (bs.length - 2) else none
  decode_encode r := by
    simp [braced, ofNumber, number]
  isBlank_encode r := by simp [braced, isBlank]
  newline_notMem r := by simp [braced, newline]
  decode_take r n hn := by
    refine if_neg fun heq => ?_
    have hlast : (125 : UInt8) ∈ (braced (number r)).take n := heq ▸ by simp [braced]
    cases n with
    | zero => simp at hlast
    | succ n =>
      simp only [braced, length_cons, length_append, length_replicate, length_nil] at hn
      rw [braced, take_succ_cons, take_append_of_le_length (by simp; omega)] at hlast
      simp at hlast
  decode_append r n r' hne := by
    refine if_neg fun heq => ?_
    cases n with
    | zero => exact hne rfl
    | succ n =>
      have hopen : (123 : UInt8) ∈ ((List.replicate (number r) (49 : UInt8) ++ [125]).take n).append
          (braced (number r')) := mem_append_right _ (by simp [braced])
      rw [(List.cons.inj heq).2] at hopen
      simp at hopen

theorem two_le_length_encode (r : JournalRecord) : 2 ≤ (unaryCodec.encode r).length := by
  simp [unaryCodec, braced]

theorem replay_run_reopened :
    replay unaryCodec (run unaryCodec (reopened (.add 1) (.add 2) (.add 3) (.remove 1))).file =
      [.add 1, .add 3] := by
  rw [replay_run (whole_reopened _ _ _ _)]
  exact survivors_reopened two_le_length_encode

/-- The second entry is written behind what is left of the first, on the same line. -/
theorem not_replay_run_torn : replay unaryCodec
        (run unaryCodec [.append (.add 1), .crash 1, .reopen, .append (.add 2)]).file = [] ∧
      (run unaryCodec [.append (.add 1), .crash 1, .reopen, .append (.add 2)]).survivors =
        [.add 2] :=
  lost_behind_torn (two_le_length_encode _)

end JournalRun

end CassandraVerified.Storage
