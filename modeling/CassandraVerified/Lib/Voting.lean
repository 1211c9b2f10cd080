import Mathlib

/-!
# Voting with ballots

Voters promise never to vote below a ballot and vote for ballots that were proposed with a value. A
ballot is blocked once a quorum has promised more than it without having voted for it, so that no
quorum can choose it any more. A proposal is safe if every smaller ballot has its value, is blocked,
or is excused for a reason that the protocol names. Proposals stay safe if each of them takes its
value from the greatest ballot that was reported to it.
-/

namespace Voting

variable {R B V : Type*} [LinearOrder B]

/-- What the voters have promised and voted for, and what was proposed. -/
structure Board (R B V : Type*) where
  promised : R → B
  Voted : R → B → Prop
  Proposed : B → V → Prop

namespace Board

def Chosen (Quorum : Finset R → Prop) (s : Board R B V) (b : B) : Prop :=
  ∃ q, Quorum q ∧ ∀ r ∈ q, s.Voted r b

/-- No quorum can vote for the ballot any more. -/
def Blocked (Quorum : Finset R → Prop) (s : Board R B V) (b : B) : Prop :=
  ∃ q, Quorum q ∧ ∀ r ∈ q, b < s.promised r ∧ ¬s.Voted r b

/-- The proposal of the value at the ballot agrees with all smaller ballots that can be chosen. -/
def Safe (Quorum : Finset R → Prop) (s : Board R B V) (Excused : B → Prop) (c : B) (w : V) : Prop :=
  ∀ b v, b < c → s.Proposed b v → Excused b ∨ w = v ∨ s.Blocked Quorum b

/-- Promises only grow, votes and proposals stay, and a new vote is not below the promise. -/
structure Extends (s s' : Board R B V) : Prop where
  promised : ∀ r, s.promised r ≤ s'.promised r
  voted : ∀ r b, s.Voted r b → s'.Voted r b
  newVote : ∀ r b, s'.Voted r b → s.Voted r b ∨ s.promised r ≤ b
  proposed : ∀ b v, s.Proposed b v → s'.Proposed b v

variable {Quorum : Finset R → Prop} {s s' : Board R B V} {b c : B} {v w : V}

theorem Blocked.extends (h : s.Blocked Quorum b) (he : s.Extends s') : s'.Blocked Quorum b := by
  obtain ⟨q, hq, hblocked⟩ := h
  refine ⟨q, hq, fun r hr => ?_⟩
  obtain ⟨hlt, hnot⟩ := hblocked r hr
  refine ⟨hlt.trans_le (he.promised r), fun hvoted => ?_⟩
  rcases he.newVote r b hvoted with hold | hnew
  · exact hnot hold
  · exact absurd hlt (not_lt.2 hnew)

theorem Chosen.extends (h : s.Chosen Quorum b) (he : s.Extends s') : s'.Chosen Quorum b := by
  obtain ⟨q, hq, hvoted⟩ := h
  exact ⟨q, hq, fun r hr => he.voted r b (hvoted r hr)⟩

theorem Blocked.not_chosen [DecidableEq R]
    (hmeet : ∀ p q : Finset R, Quorum p → Quorum q → (p ∩ q).Nonempty)
    (h : s.Blocked Quorum b) : ¬s.Chosen Quorum b := by
  rintro ⟨p, hp, hvoted⟩
  obtain ⟨q, hq, hblocked⟩ := h
  obtain ⟨r, hr⟩ := hmeet p q hp hq
  rw [Finset.mem_inter] at hr
  exact (hblocked r hr.2).2 (hvoted r hr.1)

variable {q : Finset R} {Excused : B → Prop}

/-- A quorum that has promised a ballot blocks every smaller one that nobody has voted for. -/
theorem blocked_of_no_vote (hq : Quorum q) (hprom : ∀ r ∈ q, c ≤ s.promised r) (hbc : b < c)
    (hnone : ∀ r ∈ q, ¬s.Voted r b) : s.Blocked Quorum b :=
  ⟨q, hq, fun r hr => ⟨hbc.trans_le (hprom r hr), hnone r hr⟩⟩

/-- A safe proposal stays safe; `hnew` is about ballots that were not proposed before. -/
theorem Safe.extends {Excused Excused' : B → Prop} (h : s.Safe Quorum Excused c w)
    (he : s.Extends s') (hexc : ∀ b, Excused b → Excused' b)
    (hnew : ∀ b v, b < c → s'.Proposed b v → s.Proposed b v ∨ s'.Blocked Quorum b) :
    s'.Safe Quorum Excused' c w := by
  intro b v hbc hprop
  rcases hnew b v hbc hprop with hold | hblocked
  · rcases h b v hbc hold with hex | heq | hbl
    · exact .inl (hexc b hex)
    · exact .inr (.inl heq)
    · exact .inr (.inr (hbl.extends he))
  · exact .inr (.inr hblocked)

/-- A ballot may be proposed with any value if no ballot was reported to it: the quorum that
promised it reports every vote below it that is not excused. -/
theorem safe_of_no_report (hq : Quorum q) (hprom : ∀ r ∈ q, c ≤ s.promised r)
    (hreport : ∀ r ∈ q, ∀ b < c, s.Voted r b → Excused b) :
    s.Safe Quorum Excused c w := by
  intro b v hbc _
  by_cases hvoted : ∃ r ∈ q, s.Voted r b
  · obtain ⟨r, hr, hvr⟩ := hvoted
    exact .inl (hreport r hr b hbc hvr)
  · exact .inr (.inr (blocked_of_no_vote hq hprom hbc fun r hr hv => hvoted ⟨r, hr, hv⟩))

/-- A ballot takes over the value of the greatest ballot that was reported to it, which may be
greater than itself. -/
theorem safe_of_report {Excused Excused₀ : B → Prop} {b₀ : B} (hq : Quorum q)
    (hprom : ∀ r ∈ q, c ≤ s.promised r)
    (hreport : ∀ r ∈ q, ∀ b < c, s.Voted r b → Excused b ∨ b ≤ b₀)
    (huniq : ∀ v, s.Proposed b₀ v → w = v) (hsafe : s.Safe Quorum Excused₀ b₀ w)
    (hexc : ∀ b, Excused₀ b → Excused b) : s.Safe Quorum Excused c w := by
  intro b v hbc hprop
  by_cases hvoted : ∃ r ∈ q, s.Voted r b
  · obtain ⟨r, hr, hvr⟩ := hvoted
    rcases hreport r hr b hbc hvr with hex | hle
    · exact .inl hex
    · rcases hle.eq_or_lt with rfl | hlt
      · exact .inr (.inl (huniq v hprop))
      · rcases hsafe b v hlt hprop with hex | hrest
        · exact .inl (hexc b hex)
        · exact .inr hrest
  · exact .inr (.inr (blocked_of_no_vote hq hprom hbc fun r hr hv => hvoted ⟨r, hr, hv⟩))

/-- If a ballot is chosen, then every safe proposal above it has its value or is excused. -/
theorem Safe.eq_of_chosen [DecidableEq R]
    (hmeet : ∀ p q : Finset R, Quorum p → Quorum q → (p ∩ q).Nonempty)
    (h : s.Safe Quorum Excused c w) (hbc : b < c) (hprop : s.Proposed b v)
    (hchosen : s.Chosen Quorum b) : Excused b ∨ w = v := by
  rcases h b v hbc hprop with hex | heq | hbl
  · exact .inl hex
  · exact .inr heq
  · exact absurd hchosen (hbl.not_chosen hmeet)

end Board

end Voting
