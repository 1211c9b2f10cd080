import CassandraVerified.Lib.Voting
import CassandraVerified.Paxos.Proofs.SystemProofs

/-!
# Agreement

For every partition key the replicas vote on a board of their own (`Lib/Voting`). A new proposal is
safe because a quorum has promised its ballot: each of these replicas reported what it had accepted,
or had already dropped it for a commit that is not older.
-/

namespace CassandraVerified.Paxos

open List
open Voting (Board)
open Storage (Bytes)
open PaxosReplica Paxos.System

variable {s : System} {i j attempts : Nat} {phase : CasPhase} {p : Proposal} {input : Input}
  {replicas : Nat → PaxosReplica} {events : List Event} {calls : Nat → CasCall} {b c : Ballot}
  {trace : List (Nat × Event)} {e e' : Nat × Event} {adopted : Option Ballot}
  {promises : List PaxosPromise}

theorem Before.mono (h : Before trace e e') (l : List (Nat × Event)) : Before (trace ++ l) e e' :=
  List.Sublist.trans h (sublist_append_left trace l)

theorem Before.mem_left (h : Before trace e e') : e ∈ trace := h.subset (by simp)

section

variable (calls : Nat → CasCall)

def ProposedFor (s : System) (k : Bytes) (p : Proposal) : Prop :=
  ∃ i adopted, (calls i).partitionKey = k ∧ (i, .proposed p adopted) ∈ s.trace

/-- The commit of a proposal was applied at a replica for a partition. -/
def AppliedAt (s : System) (k : Bytes) (r : Nat) (p : Proposal) : Prop :=
  ∃ i, (calls i).partitionKey = k ∧ (i, .applied r p) ∈ s.trace

/-- The votes on a partition. -/
def board (s : System) (k : Bytes) : Board Nat Ballot Bytes where
  promised r := ((s.replicas r).state k).promised
  Voted r b := ∃ p, p.ballot = b ∧ AcceptedAt calls s k r p
  Proposed b v := ProposedFor calls s k ⟨b, v⟩

/-- A commit that is not older was applied before the promises were collected. -/
def Excused (s : System) (i : Nat) (c b : Ballot) : Prop := ∃ commit : Proposal, b ≤ commit.ballot ∧
    AppliedBefore calls s (calls i).partitionKey commit i c

/-! ## The invariant -/

/-- The ballot of a phase belongs to the call, and is proposed when the phase says so. -/
def RoundOf (trace : List (Nat × Event)) (i : Nat) : CasPhase → Prop
  | .preparing _ b _ | .reading _ b =>
    (i, .started b) ∈ trace ∧ ∀ p adopted, (i, .proposed p adopted) ∈ trace → p.ballot ≠ b
  | .proposing _ p _ _ | .committing _ p _ _ => ∃ adopted, (i, .proposed p adopted) ∈ trace
  | .idle _ | .returned _ => True

/-- A ballot belongs to one call, which makes one proposal with it. -/
structure Rounds (s : System) : Prop where
  started_inj : ∀ {i j b}, (i, .started b) ∈ s.trace → (j, .started b) ∈ s.trace → i = j
  started : ∀ {i p adopted}, (i, .proposed p adopted) ∈ s.trace → (i, .started p.ballot) ∈ s.trace
  unique : ∀ {i p p' adopted adopted'}, (i, .proposed p adopted) ∈ s.trace →
    (i, .proposed p' adopted') ∈ s.trace → p.ballot = p'.ballot → p = p' ∧ adopted = adopted'
  phase : ∀ i, RoundOf s.trace i (s.phases i)

/-- What the state of a partition at a replica says about what happened there. -/
structure ReplicaInv (s : System) (k : Bytes) (r : Nat) (st : PaxosState) : Prop where
  accepted : ∀ {q}, st.accepted = some q → q.ballot ≤ st.promised ∧ ProposedFor calls s k q
  committed : ∀ {e}, st.committed = some e → AppliedAt calls s k r e
  proposed : ∀ {p}, AcceptedAt calls s k r p → ProposedFor calls s k p
  /-- A vote is still there or was dropped for a commit that is not older. -/
  voted : ∀ {p}, AcceptedAt calls s k r p → p.ballot ≤ st.promised ∧
    ((∃ q, st.accepted = some q ∧ p.ballot ≤ q.ballot) ∨
      ∃ e, st.committed = some e ∧ p.ballot ≤ e.ballot)

/-- What the answer of a replica to a prepare says about its votes. -/
structure PromiseInv (s : System) (k : Bytes) (c : Ballot) (r : Nat) (promise : PaxosPromise) :
    Prop where
  inProgress : ∀ {q}, promise.inProgress = some q → ProposedFor calls s k q
  committed : ∀ {e}, promise.mostRecentCommit = some e → AppliedAt calls s k r e
  promised : promise.promised = true → c ≤ ((s.replicas r).state k).promised
  voted : promise.promised = true → ∀ {p}, AcceptedAt calls s k r p → p.ballot < c →
    (∃ q, promise.inProgress = some q ∧ p.ballot ≤ q.ballot) ∨
      ∃ e, promise.mostRecentCommit = some e ∧ p.ballot ≤ e.ballot

/-- The invariant of a run. -/
structure Inv (replicas : List Nat) (s : System) : Prop where
  rounds : Rounds s
  replica : ∀ k r, ReplicaInv calls s k r ((s.replicas r).state k)
  answered : ∀ {i attempts c promises}, s.phases i = .preparing attempts c promises →
    promises.length ≤ replicas.length
  promise : ∀ {i attempts c promises}, s.phases i = .preparing attempts c promises →
    ∀ {j r : Nat} {promise}, (calls i).coordinator.replicas[j]? = some r → promises[j]? = some promise →
      PromiseInv calls s (calls i).partitionKey c r promise
  collected : ∀ {i c}, (i, .collected c) ∈ s.trace →
    ∃ q, Quorum replicas q ∧ ∀ r ∈ q, c ≤ ((s.replicas r).state (calls i).partitionKey).promised
  reading : ∀ {i attempts c}, s.phases i = .reading attempts c → (i, .collected c) ∈ s.trace ∧
    ∀ w, (board calls s (calls i).partitionKey).Safe (Quorum replicas) (Excused calls s i c) c w
  proposed : ∀ {i p adopted}, (i, .proposed p adopted) ∈ s.trace →
    (i, .collected p.ballot) ∈ s.trace ∧
    (board calls s (calls i).partitionKey).Safe (Quorum replicas) (Excused calls s i p.ballot)
      p.ballot p.mutation

end

/-! ## Rounds -/

theorem RoundOf.congr {trace' : List (Nat × Event)} (h : RoundOf trace i phase)
    (hstarted : ∀ b, (i, .started b) ∈ trace' ↔ (i, .started b) ∈ trace)
    (hproposed : ∀ p adopted, (i, .proposed p adopted) ∈ trace' ↔ (i, .proposed p adopted) ∈ trace) :
    RoundOf trace' i phase := by
  cases phase with
  | preparing | reading => simpa only [RoundOf, hstarted, hproposed] using h
  | proposing | committing => simpa only [RoundOf, hproposed] using h
  | idle attempts => trivial
  | returned result => trivial

theorem mem_ballots (h : (i, .started b) ∈ s.trace) : b ∈ s.ballots :=
  mem_filterMap.2 ⟨_, h, rfl⟩

theorem ballots_start (s : System) (i : Nat) (phase : CasPhase) (replicas : Nat → PaxosReplica)
    (b : Ballot) : (s.after i phase replicas [.started b]).ballots = s.ballots ++ [b] := by
  simp [ballots]

namespace Rounds

theorem fresh (h : Rounds s) (hstarted : (i, .started b) ∈ s.trace)
    (hnone : ∀ p adopted, (i, .proposed p adopted) ∈ s.trace → p.ballot ≠ b)
    (hp : (j, .proposed p adopted) ∈ s.trace) :
    p.ballot ≠ b := by
  rintro rfl
  obtain rfl := h.started_inj (h.started hp) hstarted
  exact hnone p adopted hp rfl

theorem fresh_of_proposed (h : Rounds s) {call : CasCall}
    (hmove : Move call input s.replicas (s.phases i) phase replicas events) {q : Proposal}
    {adopted' : Option Ballot} (hnew : .proposed p adopted ∈ events)
    (hold : (j, .proposed q adopted') ∈ s.trace) : q.ballot ≠ p.ballot := by
  have hround := h.phase i
  rcases (hmove.of_proposed hnew).2 with ⟨attempts, promises, hphase⟩ | ⟨attempts, hphase⟩ <;>
    rw [hphase] at hround <;> exact h.fresh hround.1 hround.2 hold

theorem eq_of_ballot (h : Rounds s) {p' : Proposal} {adopted' : Option Ballot}
    (hp : (i, .proposed p adopted) ∈ s.trace) (hp' : (j, .proposed p' adopted') ∈ s.trace)
    (hb : p.ballot = p'.ballot) : i = j ∧ p = p' ∧ adopted = adopted' := by
  have hstarted := h.started hp
  rw [hb] at hstarted
  obtain rfl := h.started_inj hstarted (h.started hp')
  exact ⟨rfl, h.unique hp hp' hb⟩

theorem new : Rounds .new where
  started_inj h := nomatch h
  started h := nomatch h
  unique h := nomatch h
  phase _ := trivial

/-- A call starts rounds with new ballots, and proposes once with the ballot of its round. -/
theorem extend (h : Rounds s) (hstart : ∀ b, .started b ∈ events → b ∉ s.ballots)
    (hround : ∀ p adopted, .proposed p adopted ∈ events → (i, .started p.ballot) ∈ s.trace ∧
      ∀ q a, (i, .proposed q a) ∈ s.trace → q.ballot ≠ p.ballot)
    (honce : ∀ p adopted q a, .proposed p adopted ∈ events → .proposed q a ∈ events →
      p = q ∧ adopted = a)
    (hphase : RoundOf (s.after i phase replicas events).trace i phase) :
    Rounds (s.after i phase replicas events) := by
  refine ⟨?_, ?_, ?_, fun j => ?_⟩
  · intro j j' b hj hj'
    rw [mem_trace_after] at hj hj'
    rcases hj with hold | ⟨rfl, hnew⟩
    · rcases hj' with hold' | ⟨-, hnew'⟩
      · exact h.started_inj hold hold'
      · exact absurd (mem_ballots hold) (hstart b hnew')
    · rcases hj' with hold' | ⟨rfl, -⟩
      · exact absurd (mem_ballots hold') (hstart b hnew)
      · rfl
  · intro j q a hq
    rw [mem_trace_after] at hq
    rcases hq with hold | ⟨rfl, hnew⟩
    · exact mem_append_left _ (h.started hold)
    · exact mem_append_left _ (hround q a hnew).1
  · intro j q q' a a' hq hq' hb
    rw [mem_trace_after] at hq hq'
    rcases hq with hold | ⟨rfl, hnew⟩
    · rcases hq' with hold' | ⟨rfl, hnew'⟩
      · exact h.unique hold hold' hb
      · exact absurd hb ((hround q' a' hnew').2 q a hold)
    · rcases hq' with hold' | ⟨-, hnew'⟩
      · exact absurd hb.symm ((hround q a hnew).2 q' a' hold')
      · exact honce q a q' a' hnew hnew'
  · by_cases hj : j = i
    · subst hj
      rw [after_phases_self]
      exact hphase
    · have hother : ∀ e, (j, e) ∈ (s.after i phase replicas events).trace ↔ (j, e) ∈ s.trace :=
        fun e => by rw [mem_trace_after, or_iff_left fun hnew => hj hnew.1]
      rw [after_phases_of_ne hj]
      exact (h.phase j).congr (fun _ => hother _) fun _ _ => hother _

/-- Rounds are kept by a move that neither starts a round nor proposes. -/
theorem quiet (h : Rounds s)
    (hquiet : ∀ e ∈ events, (∀ b, e ≠ .started b) ∧ ∀ p adopted, e ≠ .proposed p adopted)
    (hphase : RoundOf s.trace i phase) : Rounds (s.after i phase replicas events) := by
  have hstarted : ∀ b, .started b ∉ events := fun b hmem => (hquiet _ hmem).1 b rfl
  have hproposed : ∀ p a, .proposed p a ∉ events := fun p a hmem => (hquiet _ hmem).2 p a rfl
  refine h.extend (fun b hb => absurd hb (hstarted b)) (fun p a hp => absurd hp (hproposed p a))
    (fun p a _ _ hp => absurd hp (hproposed p a)) (hphase.congr (fun b => ?_) fun p a => ?_)
  · rw [mem_trace_after, or_iff_left fun hnew => hstarted b hnew.2]
  · rw [mem_trace_after, or_iff_left fun hnew => hproposed p a hnew.2]

theorem after (h : Rounds s) {call : CasCall}
    (hmove : Move call input s.replicas (s.phases i) phase replicas events)
    (hdistinct : (s.after i phase replicas events).DistinctBallots) :
    Rounds (s.after i phase replicas events) := by
  have hphase := h.phase i
  generalize s.phases i = before at hmove hphase
  cases hmove with
  | start _ =>
    rw [System.DistinctBallots, ballots_start] at hdistinct
    have hfresh := fun hmem => (nodup_append.1 hdistinct).2.2 _ hmem _ mem_cons_self rfl
    refine h.extend (by simpa using hfresh) (by simp) (by simp) ⟨by simp, fun p a hp hb => ?_⟩
    rw [mem_trace_after, or_iff_left (by simp)] at hp
    exact hfresh (hb ▸ mem_ballots (h.started hp))
  | @adopt _ ballot _ adopted _ _ _ =>
    exact h.extend (by simp) (by simpa [RoundOf] using hphase) (by simp +contextual)
      ⟨some adopted.ballot, by simp⟩
  | met _ =>
    exact h.extend (by simp) (by simpa [RoundOf] using hphase) (by simp +contextual) ⟨none, by simp⟩
  | propose _ =>
    refine h.quiet (fun e he => ?_) hphase
    split at he
    · rw [mem_singleton.1 he]
      simp
    · simp at he
  | abort _ => exact h.quiet (by simp) trivial
  | giveUp _ _ => exact h.quiet (by simp) trivial
  | notMet _ => exact h.quiet (by simp) trivial
  | refused _ _ => exact h.quiet (by simp) trivial
  | recovered _ => exact h.quiet (by simp) trivial
  | succeed _ => exact h.quiet (by simp) trivial
  | prepare _ => exact h.quiet (by simp) hphase
  | collect _ _ _ => exact h.quiet (by simp) hphase
  | chosen _ _ => exact h.quiet (by simp) hphase
  | commit _ => exact h.quiet (by simp) hphase
  | stay => exact h.quiet (by simp) trivial

end Rounds

/-! ## Replicas -/

section after

variable {k : Bytes} {r : Nat}

theorem ProposedFor.after (h : ProposedFor calls s k p) :
    ProposedFor calls (s.after i phase replicas events) k p := by
  obtain ⟨j, adopted, hk, hp⟩ := h
  exact ⟨j, adopted, hk, mem_append_left _ hp⟩

theorem AppliedAt.after (h : AppliedAt calls s k r p) :
    AppliedAt calls (s.after i phase replicas events) k r p := by
  obtain ⟨j, hk, hp⟩ := h
  exact ⟨j, hk, mem_append_left _ hp⟩

theorem AcceptedAt.after (h : AcceptedAt calls s k r p) :
    AcceptedAt calls (s.after i phase replicas events) k r p := by
  obtain ⟨j, hk, hp⟩ := h
  exact ⟨j, hk, mem_append_left _ hp⟩

theorem acceptedAt_after (h : AcceptedAt calls (s.after i phase replicas events) k r p) :
    AcceptedAt calls s k r p ∨ (calls i).partitionKey = k ∧ .accepted r p ∈ events := by
  obtain ⟨j, hk, hp⟩ := h
  rw [mem_trace_after] at hp
  rcases hp with hold | ⟨rfl, hnew⟩
  · exact .inl ⟨j, hk, hold⟩
  · exact .inr ⟨hk, hnew⟩

namespace ReplicaInv

variable {st : PaxosState}

section

variable (h : ReplicaInv calls s k r st)

include h

theorem raise (b : Ballot)
    (hquiet : ∀ p, (calls i).partitionKey = k → .accepted r p ∉ events) :
    ReplicaInv calls (s.after i phase replicas events) k r
      { st with promised := max st.promised b } := by
  have hold : ∀ {p}, AcceptedAt calls (s.after i phase replicas events) k r p →
      AcceptedAt calls s k r p := fun {p} hp =>
    (acceptedAt_after hp).resolve_right fun hnew => hquiet p hnew.1 hnew.2
  refine ⟨fun hq => ?_, fun he => (h.committed he).after, fun hp => (h.proposed (hold hp)).after,
    fun hp => ?_⟩
  · obtain ⟨hle, hprop⟩ := h.accepted hq
    exact ⟨hle.trans (le_max_left _ _), hprop.after⟩
  · obtain ⟨hle, hvote⟩ := h.voted (hold hp)
    exact ⟨hle.trans (le_max_left _ _), hvote⟩

theorem quiet
    (hquiet : ∀ p, (calls i).partitionKey = k → .accepted r p ∉ events) :
    ReplicaInv calls (s.after i phase replicas events) k r st := by
  simpa using h.raise st.promised hquiet

theorem accept (hle : st.promised ≤ p.ballot) (hp : ProposedFor calls s k p) :
    ReplicaInv calls (s.after i phase replicas [.accepted r p]) k r
      { st with promised := p.ballot, accepted := some p } := by
  have hcases : ∀ {q}, AcceptedAt calls (s.after i phase replicas [.accepted r p]) k r q →
      AcceptedAt calls s k r q ∨ q = p := fun hq =>
    (acceptedAt_after hq).imp_right fun hnew => by simpa using hnew.2
  refine ⟨fun hq => ?_, fun he => (h.committed he).after, fun hq => ?_, fun hq => ?_⟩
  · obtain rfl := Option.some.inj hq
    exact ⟨le_rfl, hp.after⟩
  · rcases hcases hq with hold | rfl
    · exact (h.proposed hold).after
    · exact hp.after
  · rcases hcases hq with hold | rfl
    · have hqp := (h.voted hold).1.trans hle
      exact ⟨hqp, .inl ⟨p, rfl, hqp⟩⟩
    · exact ⟨le_rfl, .inl ⟨_, rfl, le_rfl⟩⟩

theorem commit (hk : (calls i).partitionKey = k) :
    ReplicaInv calls (s.after i phase replicas [.applied r p]) k r (st.commit p) := by
  have hcommitted : ∀ {e}, (st.commit p).committed = some e →
      AppliedAt calls (s.after i phase replicas [.applied r p]) k r e := by
    intro e he
    rcases PaxosState.committed_commit he with rfl | hold
    · exact ⟨i, hk, by rw [mem_trace_after]; simp⟩
    · exact (h.committed hold).after
  have hold : ∀ {q}, AcceptedAt calls (s.after i phase replicas [.applied r p]) k r q →
      AcceptedAt calls s k r q := fun hq => (acceptedAt_after hq).resolve_right (by simp)
  refine ⟨fun hq => ?_, hcommitted, fun hq => (h.proposed (hold hq)).after, fun hq => ?_⟩
  · obtain ⟨hle, hprop⟩ := h.accepted (PaxosState.accepted_of_commit hq)
    exact ⟨hle, hprop.after⟩
  · obtain ⟨hle, hvote⟩ := h.voted (hold hq)
    refine ⟨hle, ?_⟩
    rcases hvote with ⟨a, ha, hqa⟩ | ⟨e, he, hqe⟩
    · by_cases hstill : (st.commit p).accepted = some a
      · exact .inl ⟨a, hstill, hqa⟩
      · obtain ⟨c, hc, hac⟩ := PaxosState.accepted_or_committed ha hstill
        exact .inr ⟨c, hc, hqa.trans hac⟩
    · obtain ⟨d, hd, -, hnewer⟩ := st.exists_committed_commit p
      exact .inr ⟨d, hd, hqe.trans (hnewer e he)⟩

end

/-- Only the replica that a message is sent to changes, and only for the partition of the call. -/
theorem after (h : ∀ k r, ReplicaInv calls s k r ((s.replicas r).state k))
    (hmove : Move (calls i) input s.replicas (s.phases i) phase replicas events)
    (hround : RoundOf s.trace i (s.phases i)) (k : Bytes) (r : Nat) :
    ReplicaInv calls (s.after i phase replicas events) k r ((replicas r).state k) := by
  obtain ⟨hstate, hquiet⟩ | ⟨rfl, ⟨b, hstate, hquiet⟩ |
    ⟨attempts, q, adopted, accepts, hbefore, hle, rfl, hstate⟩ | ⟨q, hstate, rfl⟩⟩ :=
      hmove.state_cases r k <;> rw [hstate]
  · exact (h k r).quiet fun q hk => hquiet hk.symm q
  · exact (h _ r).raise b fun q _ => hquiet q
  · rw [hbefore] at hround
    obtain ⟨adopted, hproposed⟩ := hround
    exact (h _ r).accept hle ⟨i, adopted, rfl, hproposed⟩
  · exact (h _ r).commit rfl

end ReplicaInv

/-! ## Boards and promises -/

theorem board_extends
    (hmove : Move (calls i) input s.replicas (s.phases i) phase replicas events) (k : Bytes) :
    (board calls s k).Extends (board calls (s.after i phase replicas events) k) where
  promised r := hmove.promised_le r k
  voted := fun r b ⟨p, hb, hp⟩ => ⟨p, hb, hp.after⟩
  newVote := by
    rintro r b ⟨p, rfl, hp⟩
    rcases acceptedAt_after hp with hold | ⟨rfl, hnew⟩
    · exact .inl ⟨p, rfl, hold⟩
    · exact .inr (hmove.promised_le_of_accepted hnew)
  proposed _ _ h := h.after

theorem Excused.after (h : Excused calls s j c b) :
    Excused calls (s.after i phase replicas events) j c b := by
  obtain ⟨commit, hle, j', r, hk, hbefore⟩ := h
  exact ⟨commit, hle, j', r, hk, hbefore.mono _⟩

theorem excused_of_applied {e : Proposal}
    (happlied : AppliedAt calls s (calls i).partitionKey r e) (hle : b ≤ e.ballot)
    (hcollect : .collected c ∈ events) :
    Excused calls (s.after i phase replicas events) i c b := by
  obtain ⟨j, hk, hmem⟩ := happlied
  exact ⟨e, hle, j, r, hk,
    (singleton_sublist.2 hmem).append (singleton_sublist.2 (mem_map_of_mem hcollect))⟩

theorem PromiseInv.after {promise : PaxosPromise} (h : PromiseInv calls s k c r promise)
    (hmove : Move (calls i) input s.replicas (s.phases i) phase replicas events) :
    PromiseInv calls (s.after i phase replicas events) k c r promise where
  inProgress hq := (h.inProgress hq).after
  committed he := (h.committed he).after
  promised hp := (h.promised hp).trans (hmove.promised_le r k)
  voted hprom p hp hlt := by
    rcases acceptedAt_after hp with hold | ⟨rfl, hnew⟩
    · exact h.voted hprom hold hlt
    · have hle := (h.promised hprom).trans (hmove.promised_le_of_accepted hnew)
      exact absurd hlt (not_lt.2 hle)

theorem PromiseInv.prepare {st : PaxosState} {promise : PaxosPromise}
    (h : ReplicaInv calls s k r st) (hreport : promise.inProgress = st.accepted)
    (hcommit : promise.mostRecentCommit = st.committed)
    (hpromised : promise.promised = true → c ≤ ((replicas r).state k).promised)
    (hquiet : ∀ p, .accepted r p ∉ events) :
    PromiseInv calls (s.after i phase replicas events) k c r promise where
  inProgress hq := by
    rw [hreport] at hq
    exact (h.accepted hq).2.after
  committed he := (h.committed (hcommit ▸ he)).after
  promised := hpromised
  voted _ p hp _ := by
    have hold := (acceptedAt_after hp).resolve_right fun hnew => hquiet p hnew.2
    rw [hreport, hcommit]
    exact (h.voted hold).2

end after

/-! ## Quorums -/

/-- The replicas whose answer is a yes, as many as there are yeses. -/
theorem exists_answered {α : Type*} (yes : α → Bool) {replicas : List Nat} {answers : List α}
    (hnodup : replicas.Nodup) (hlen : answers.length = replicas.length) :
    ∃ q : Finset Nat, q ⊆ replicas.toFinset ∧ q.card = answers.countP yes ∧
      ∀ r ∈ q, ∃ (j : Nat) (x : α),
        replicas[j]? = some r ∧ answers[j]? = some x ∧ yes x = true := by
  induction replicas generalizing answers with
  | nil =>
    rw [length_nil, length_eq_zero_iff] at hlen
    exact ⟨∅, by simp, by simp [hlen], by simp⟩
  | cons r replicas ih =>
    obtain _ | ⟨x, answers⟩ := answers
    · simp at hlen
    · obtain ⟨hr, hnodup⟩ := nodup_cons.1 hnodup
      obtain ⟨q, hsub, hcard, hyes⟩ := ih hnodup (Nat.succ.inj hlen)
      have hshift : ∀ r' ∈ q, ∃ (j : Nat) (y : α),
          (r :: replicas)[j]? = some r' ∧ (x :: answers)[j]? = some y ∧ yes y = true := fun r' hr' => by
        obtain ⟨j, y, hj⟩ := hyes r' hr'
        exact ⟨j + 1, y, by simpa using hj⟩
      have hsub' : q ⊆ (r :: replicas).toFinset := hsub.trans (by simp)
      cases hx : yes x with
      | true =>
        have hrq : r ∉ q := fun hmem => hr (mem_toFinset.1 (hsub hmem))
        refine ⟨insert r q, ?_, ?_, fun r' hr' => ?_⟩
        · exact Finset.insert_subset (by simp) hsub'
        · rw [Finset.card_insert_of_notMem hrq, hcard, countP_cons_of_pos hx]
        · rcases Finset.mem_insert.1 hr' with rfl | hmem
          · exact ⟨0, x, rfl, rfl, hx⟩
          · exact hshift r' hmem
      | false =>
        refine ⟨q, hsub', ?_, hshift⟩
        rw [hcard, countP_cons_of_neg (by simp [hx])]

theorem quorum_meet {replicas : List Nat} {p q : Finset Nat} (hp : Quorum replicas p)
    (hq : Quorum replicas q) : (p ∩ q).Nonempty := by
  refine Finset.inter_nonempty_of_card_lt_card_add_card hp.1 hq.1 ?_
  have hcard := replicas.toFinset_card_le
  have := hp.2
  have := hq.2
  omega

variable {proposals : List Proposal}

theorem maxByBallot_eq_none (h : maxByBallot proposals = none) :
    proposals = [] := by
  obtain rfl | ⟨init, x, rfl⟩ := proposals.eq_nil_or_concat
  · rfl
  · simp [maxByBallot] at h

theorem mem_maxByBallot :
    maxByBallot proposals = some p → p ∈ proposals ∧ ∀ q ∈ proposals, q.ballot ≤ p.ballot := by
  induction proposals using List.reverseRecOn generalizing p with
  | nil => simp [maxByBallot]
  | append_singleton proposals last ih =>
    intro h
    rw [maxByBallot, foldl_concat] at h
    change some ((maxByBallot proposals).elim _ _) = some p at h
    obtain rfl := Option.some.inj h
    cases hmax : maxByBallot proposals with
    | none =>
      rw [maxByBallot_eq_none hmax]
      simp
    | some best =>
      obtain ⟨hmem, hge⟩ := ih hmax
      simp only [Option.elim_some, mem_append, mem_singleton]
      split
      · next hle =>
        refine ⟨.inr rfl, fun q hq => ?_⟩
        rcases hq with hq | rfl
        · exact (hge q hq).trans hle
        · exact le_rfl
      · next hle =>
        refine ⟨.inl hmem, fun q hq => ?_⟩
        rcases hq with hq | rfl
        · exact hge q hq
        · exact (not_le.1 hle).le

theorem Shares.exists_quorum {α : Type*} {answers : List α} {yes : α → Bool} {replicas : List Nat}
    (h : Shares calls replicas) (hall : (calls i).coordinator.replicas[answers.length]? = none)
    (hlen : answers.length ≤ replicas.length)
    (hquorum : (calls i).coordinator.quorumSize ≤ answers.countP yes) :
    ∃ q, Quorum replicas q ∧ ∀ r ∈ q, ∃ (j : Nat) (x : α),
      (calls i).coordinator.replicas[j]? = some r ∧ answers[j]? = some x ∧ yes x = true := by
  have hperm := h.perm i
  rw [List.getElem?_eq_none_iff, hperm.length_eq] at hall
  obtain ⟨q, hsub, hcard, hyes⟩ := exists_answered yes
    (hperm.nodup_iff.2 h.nodup) ((hlen.antisymm hall).trans hperm.length_eq.symm)
  refine ⟨q, ⟨?_, ?_⟩, hyes⟩
  · intro r hr
    exact mem_toFinset.2 (hperm.mem_iff.1 (mem_toFinset.1 (hsub hr)))
  · have := h.majority i
    omega

/-! ## The invariant holds -/

namespace Inv

variable {nodes : List Nat}

theorem new : Inv calls nodes .new where
  rounds := .new
  replica k r :=
    { accepted := fun h => by simp [System.new, PaxosState.new] at h
      committed := fun h => by simp [System.new, PaxosState.new] at h
      proposed := fun ⟨_, _, h⟩ => nomatch h
      voted := fun ⟨_, _, h⟩ => nomatch h }
  answered h := nomatch h
  promise h := nomatch h
  collected h := nomatch h
  reading h := nomatch h
  proposed h := nomatch h

section

variable (h : Inv calls nodes s)

include h

section

variable (hmove : Move (calls i) input s.replicas (s.phases i) phase replicas events)

include hmove

/-- A new proposal is above every ballot that a collected round could have missed: nobody has voted
for it yet. -/
theorem old_or_blocked {v : Bytes}
    (hcollected : (j, .collected c) ∈ s.trace) (hbc : b < c)
    (hprop : ProposedFor calls (s.after i phase replicas events) (calls j).partitionKey ⟨b, v⟩) :
    ProposedFor calls s (calls j).partitionKey ⟨b, v⟩ ∨
      (board calls (s.after i phase replicas events) (calls j).partitionKey).Blocked
        (Quorum nodes) b := by
  obtain ⟨j', adopted, hk, hmem⟩ := hprop
  rw [mem_trace_after] at hmem
  rcases hmem with hold | ⟨rfl, hnew⟩
  · exact .inl ⟨j', adopted, hk, hold⟩
  · refine .inr ?_
    obtain ⟨q, hq, hprom⟩ := h.collected hcollected
    refine Board.blocked_of_no_vote hq (fun r hr => (hprom r hr).trans (hmove.promised_le r _)) hbc ?_
    rintro r - ⟨p, rfl, hp⟩
    have hold := (acceptedAt_after hp).resolve_right fun hacc =>
      (hmove.of_proposed hnew).1 r p hacc.2
    obtain ⟨l, a, -, hl⟩ := (h.replica _ _).proposed hold
    exact h.rounds.fresh_of_proposed hmove hnew hl rfl

theorem safe_after {w : Bytes}
    (hcollected : (j, .collected c) ∈ s.trace)
    (hsafe : (board calls s (calls j).partitionKey).Safe (Quorum nodes) (Excused calls s j c) c w) :
    (board calls (s.after i phase replicas events) (calls j).partitionKey).Safe (Quorum nodes)
      (Excused calls (s.after i phase replicas events) j c) c w :=
  hsafe.extends (board_extends hmove _) (fun _ => Excused.after) fun _ _ hbc hprop =>
    h.old_or_blocked hmove hcollected hbc hprop

end

section

variable (hshares : Shares calls nodes) (hphase : s.phases i = .preparing attempts c promises)
  (hall : (calls i).coordinator.replicas[promises.length]? = none)
  (hquorum : (calls i).coordinator.quorumSize ≤ promises.countP (·.promised))

include hshares hphase hall hquorum

/-- The quorum of a round that has all its promises, and what it reports. -/
theorem exists_reports :
    ∃ q, Quorum nodes q ∧ (∀ r ∈ q, c ≤ ((s.replicas r).state (calls i).partitionKey).promised) ∧
      ∀ r ∈ q, ∀ p, AcceptedAt calls s (calls i).partitionKey r p → p.ballot < c →
        (∃ p' ∈ promises.filterMap (·.inProgress), p.ballot ≤ p'.ballot) ∨
          ∃ e ∈ promises.filterMap (·.mostRecentCommit),
            AppliedAt calls s (calls i).partitionKey r e ∧ p.ballot ≤ e.ballot := by
  obtain ⟨q, hq, hyes⟩ := hshares.exists_quorum hall (h.answered hphase) hquorum
  refine ⟨q, hq, fun r hr => ?_, fun r hr p hp hlt => ?_⟩
  · obtain ⟨j, promise, hj, hpromise, hprom⟩ := hyes r hr
    exact (h.promise hphase hj hpromise).promised hprom
  · obtain ⟨j, promise, hj, hpromise, hprom⟩ := hyes r hr
    have hinv := h.promise hphase hj hpromise
    have hmem := mem_of_getElem? hpromise
    rcases hinv.voted hprom hp hlt with ⟨p', hp', hle⟩ | ⟨e, he, hle⟩
    · exact .inl ⟨p', mem_filterMap.2 ⟨promise, hmem, hp'⟩, hle⟩
    · exact .inr ⟨e, mem_filterMap.2 ⟨promise, hmem, he⟩, hinv.committed he, hle⟩

theorem safe_of_none (hnone : inProgress promises = none) (hcollect : .collected c ∈ events)
    (w : Bytes) :
    (board calls s (calls i).partitionKey).Safe (Quorum nodes)
      (Excused calls (s.after i phase replicas events) i c) c w := by
  obtain ⟨q, hq, hprom, hreport⟩ := h.exists_reports hshares hphase hall hquorum
  refine Board.safe_of_no_report hq hprom ?_
  rintro r hr b hlt ⟨p, rfl, hp⟩
  rcases hreport r hr p hp hlt with ⟨p', hp', -⟩ | ⟨e, -, he, hle⟩
  · rw [maxByBallot_eq_none hnone] at hp'
    exact absurd hp' (by simp)
  · exact excused_of_applied he hle hcollect

omit hall hquorum in
/-- What a round takes over was proposed for the same partition. -/
theorem exists_proposed_of_adopt {adopted : Proposal} (hadopt : inProgress promises = some adopted) :
    ∃ l a, (calls l).partitionKey = (calls i).partitionKey ∧ (l, .proposed adopted a) ∈ s.trace := by
  obtain ⟨promise, hpromise, hin⟩ := mem_filterMap.1 (mem_maxByBallot hadopt).1
  obtain ⟨j, hj⟩ := mem_iff_getElem?.1 hpromise
  have hjlt : j < (calls i).coordinator.replicas.length := by
    have hlen := h.answered hphase
    rw [← (hshares.perm i).length_eq] at hlen
    exact (List.getElem?_eq_some_iff.1 hj).1.trans_le hlen
  exact (h.promise hphase (List.getElem?_eq_getElem hjlt) hj).inProgress hin

/-- A round that takes over the greatest report is safe. -/
theorem safe_of_adopt {adopted : Proposal} (hadopt : inProgress promises = some adopted)
    (hcollect : .collected c ∈ events) :
    (board calls s (calls i).partitionKey).Safe (Quorum nodes)
      (Excused calls (s.after i phase replicas events) i c) c adopted.mutation := by
  obtain ⟨q, hq, hprom, hreport⟩ := h.exists_reports hshares hphase hall hquorum
  have hmax := (mem_maxByBallot hadopt).2
  obtain ⟨l, a, hk, hl⟩ := h.exists_proposed_of_adopt hshares hphase hadopt
  have hsafe := (h.proposed hl).2
  rw [hk] at hsafe
  refine Board.safe_of_report hq hprom ?_ ?_ hsafe ?_
  · rintro r hr b hlt ⟨p, rfl, hp⟩
    rcases hreport r hr p hp hlt with ⟨p', hp', hle⟩ | ⟨e, -, he, hle⟩
    · exact .inr (hle.trans (hmax p' hp'))
    · exact .inl (excused_of_applied he hle hcollect)
  · rintro v ⟨l', a', -, hl'⟩
    rw [(h.rounds.eq_of_ballot hl hl' rfl).2.1]
  · rintro b ⟨e, hle, l', r, hk', hbefore⟩
    rw [hk] at hk'
    exact excused_of_applied ⟨l', hk', hbefore.mem_left⟩ hle hcollect

end

theorem after (hshares : Shares calls nodes)
    (hmove : Move (calls i) input s.replicas (s.phases i) phase replicas events)
    (hdistinct : (s.after i phase replicas events).DistinctBallots) :
    Inv calls nodes (s.after i phase replicas events) where
  rounds := h.rounds.after hmove hdistinct
  replica k r := ReplicaInv.after h.replica hmove (h.rounds.phase i) k r
  answered := by
    intro j attempts c promises hphase
    rcases phases_after_cases hphase with ⟨rfl, rfl⟩ | hphase
    · generalize hbefore : s.phases j = before at hmove
      cases hmove with
      | start _ => simp
      | prepare hr =>
        have hlt := (List.getElem?_eq_some_iff.1 hr).1
        rw [(hshares.perm j).length_eq] at hlt
        simpa using hlt
    · exact h.answered hphase
  promise := by
    intro j attempts c promises hphase l r promise hr hpromise
    rcases phases_after_cases hphase with ⟨rfl, rfl⟩ | hphase
    · have hmove' := hmove
      generalize hbefore : s.phases j = before at hmove
      cases hmove with
      | start _ => simp at hpromise
      | @prepare _ _ promises r₀ hr₀ =>
        rcases getElem?_concat_cases hpromise with hold | ⟨rfl, rfl⟩
        · exact (h.promise hbefore hr hold).after hmove'
        · obtain rfl := Option.some.inj (hr₀.symm.trans hr)
          obtain ⟨hreport, hyes, hstate⟩ :=
            (s.replicas r₀).handlePrepare_spec ((calls j).prepareMsg c)
          refine .prepare (h.replica _ _) hreport (mostRecentCommit_handlePrepare _ _)
            (fun _ => ?_) (by simp)
          rw [hstate, state_update, if_pos ⟨rfl, rfl⟩]
          exact le_max_right _ _
    · exact (h.promise hphase hr hpromise).after hmove
  collected := by
    intro j c hmem
    rw [mem_trace_after] at hmem
    rcases hmem with hold | ⟨rfl, hnew⟩
    · obtain ⟨q, hq, hprom⟩ := h.collected hold
      exact ⟨q, hq, fun r hr => (hprom r hr).trans (hmove.promised_le r _)⟩
    · generalize hbefore : s.phases j = before at hmove
      cases hmove with
      | adopt hall hquorum _ =>
        obtain ⟨q, hq, hprom, -⟩ := h.exists_reports hshares hbefore hall hquorum
        simp only [mem_cons, Event.collected.injEq, reduceCtorEq, not_mem_nil, or_false] at hnew
        exact ⟨q, hq, hnew ▸ hprom⟩
      | collect hall hquorum _ =>
        obtain ⟨q, hq, hprom, -⟩ := h.exists_reports hshares hbefore hall hquorum
        simp only [mem_singleton, Event.collected.injEq] at hnew
        exact ⟨q, hq, hnew ▸ hprom⟩
      | propose _ => split at hnew <;> simp at hnew
      | _ => simp at hnew
  reading := by
    intro j attempts c hphase
    rcases phases_after_cases hphase with ⟨rfl, rfl⟩ | hphase
    · have hkeep := board_extends hmove (calls j).partitionKey
      generalize hbefore : s.phases j = before at hmove
      cases hmove with
      | collect hall hquorum hnone =>
        refine ⟨(mem_trace_after ..).2 (.inr ⟨rfl, by simp⟩), fun w => ?_⟩
        refine (h.safe_of_none hshares hbefore hall hquorum hnone (by simp) w).extends hkeep
          (fun _ => id) fun b v _ hprop => .inl ?_
        obtain ⟨l, a, hk, hmem⟩ := hprop
        rw [mem_trace_after] at hmem
        exact ⟨l, a, hk, hmem.resolve_right (by simp)⟩
    · obtain ⟨hcollected, hsafe⟩ := h.reading hphase
      exact ⟨mem_append_left _ hcollected, fun w => h.safe_after hmove hcollected (hsafe w)⟩
  proposed := by
    intro j p adopted hmem
    rw [mem_trace_after] at hmem
    rcases hmem with hold | ⟨rfl, hnew⟩
    · obtain ⟨hcollected, hsafe⟩ := h.proposed hold
      exact ⟨mem_append_left _ hcollected, h.safe_after hmove hcollected hsafe⟩
    · have hkeep := board_extends hmove (calls j).partitionKey
      have hmove' := hmove
      generalize hbefore : s.phases j = before at hmove
      cases hmove with
      | @adopt _ c _ adopted₀ hall hquorum hadopt =>
        simp only [mem_cons, reduceCtorEq, Event.proposed.injEq, false_or, not_mem_nil,
          or_false] at hnew
        obtain ⟨rfl, rfl⟩ := hnew
        refine ⟨(mem_trace_after ..).2 (.inr ⟨rfl, by simp⟩), ?_⟩
        refine (h.safe_of_adopt hshares hbefore hall hquorum hadopt (by simp)).extends hkeep
          (fun _ => id) fun b v hlt hprop => .inl ?_
        obtain ⟨l, a, hk, hmem⟩ := hprop
        rw [mem_trace_after] at hmem
        refine ⟨l, a, hk, hmem.resolve_right fun hnew => ?_⟩
        simp only [mem_cons, reduceCtorEq, Event.proposed.injEq, Proposal.mk.injEq, false_or,
          not_mem_nil, or_false] at hnew
        exact hlt.ne hnew.2.1.1
      | met _ =>
        simp only [mem_singleton, Event.proposed.injEq] at hnew
        obtain ⟨rfl, rfl⟩ := hnew
        obtain ⟨hcollected, hsafe⟩ := h.reading hbefore
        exact ⟨mem_append_left _ hcollected, h.safe_after hmove' hcollected (hsafe _)⟩
      | propose _ => split at hnew <;> simp at hnew
      | _ => simp at hnew

end

end Inv

/-! ## Runs -/

theorem ballots_sublist (calls : Nat → CasCall) (s : System) (step : Nat × Input) :
    s.ballots.Sublist (s.step calls step).ballots := by
  obtain ⟨phase, replicas, events, -, heq⟩ := s.step_move calls step.1 step.2
  rw [heq, ballots, ballots, after_trace, filterMap_append]
  exact sublist_append_left _ _

theorem run_concat (calls : Nat → CasCall) (steps : List (Nat × Input)) (step : Nat × Input) :
    run calls (steps ++ [step]) = (run calls steps).step calls step :=
  foldl_concat ..

theorem System.run_induction {P : System → Prop} (hnew : P .new)
    (hstep : ∀ s step, P s → (s.step calls step).DistinctBallots → P (s.step calls step))
    (steps : List (Nat × Input)) (hdistinct : (run calls steps).DistinctBallots) :
    P (run calls steps) := by
  induction steps using List.reverseRecOn with
  | nil => exact hnew
  | append_singleton steps step ih =>
    rw [run_concat] at hdistinct ⊢
    exact hstep _ _ (ih (hdistinct.sublist (ballots_sublist _ _ _))) hdistinct

theorem EveryStep.concat {condition : System → Nat × Input → Prop} {steps : List (Nat × Input)}
    {step : Nat × Input} (h : EveryStep calls condition (steps ++ [step])) :
    EveryStep calls condition steps ∧ condition (System.run calls steps) step :=
  ⟨fun _ _ hle => h _ _ (hle.trans (prefix_append _ _)), h steps step (prefix_refl _)⟩

theorem EveryStep.of_forall {condition : System → Nat × Input → Prop} {steps : List (Nat × Input)}
    (h : ∀ n : Fin steps.length, condition (run calls (steps.take n)) (steps.get n)) :
    EveryStep calls condition steps := by
  rintro before step ⟨rest, rfl⟩
  simpa using h ⟨before.length, by simp⟩

theorem inv_run {nodes : List Nat} (hshares : Shares calls nodes)
    (steps : List (Nat × Input)) (hdistinct : (run calls steps).DistinctBallots) :
    Inv calls nodes (run calls steps) := by
  refine run_induction .new (fun s step h hd => ?_) steps hdistinct
  obtain ⟨phase, replicas, events, hmove, heq⟩ := s.step_move calls step.1 step.2
  rw [heq] at hd ⊢
  exact h.after hshares hmove hd

/-- Paxos agreement, for every interleaving of rounds with distinct ballots. -/
theorem agreement_of_distinctBallots {calls : Nat → CasCall} {nodes : List Nat}
    (hshares : Shares calls nodes) (steps : List (Nat × Input))
    (hdistinct : (run calls steps).DistinctBallots) :
    Agreement calls nodes (run calls steps) := by
  intro k chosen q hq hchosen i proposal adopted hk hmem hlt
  have hinv := inv_run hshares steps hdistinct
  have hsafe := (hinv.proposed hmem).2
  rw [hk] at hsafe
  obtain ⟨r, hr⟩ : q.Nonempty := Finset.inter_self q ▸ quorum_meet hq hq
  have hvalue := (hinv.replica k r).proposed (hchosen r hr)
  rcases hsafe.eq_of_chosen (fun _ _ => quorum_meet) hlt hvalue
    ⟨q, hq, fun r hr => ⟨chosen, rfl, hchosen r hr⟩⟩ with ⟨commit, hle, hbefore⟩ | heq
  · rw [hk] at hbefore
    exact .inr ⟨commit, hle, hbefore⟩
  · exact .inl heq

/-- `INSERT … IF NOT EXISTS` on three replicas. -/
def insertCall (nodeId : Uuid) (mutation : Bytes) : CasCall where
  coordinator := ⟨nodeId, [0, 1, 2], 2, 4⟩
  keyspace := "ks"
  table := "t"
  partitionKey := [0]
  mutation := mutation
  condition := Option.isNone

/-- Two nodes insert the same row. -/
def twoInserts (i : Nat) : CasCall := if i = 0 then insertCall 1 [1] else insertCall 2 [2]

theorem shares_twoInserts : Shares twoInserts [0, 1, 2] where
  nodup := by decide
  perm i := by
    unfold twoInserts
    split <;> rfl
  majority i := by
    unfold twoInserts
    split <;> decide

/-- All replicas have accepted the first call's proposal when the second call prepares. -/
theorem agreement_of_distinctBallots_takenOver :
    let s := run twoInserts (List.replicate 9 (0, ⟨1, none⟩) ++ List.replicate 5 (1, ⟨2, none⟩))
    (1, .proposed ⟨⟨2, 2⟩, [1]⟩ (some ⟨1, 1⟩)) ∈ s.trace ∧ Agreement twoInserts [0, 1, 2] s := by
  refine ⟨by decide, agreement_of_distinctBallots shares_twoInserts _ ?_⟩
  unfold System.DistinctBallots
  decide

end CassandraVerified.Paxos
