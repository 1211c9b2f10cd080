import CassandraVerified.Paxos.System

/-!
# What a step can do

The messages to a replica as equations, and the moves of a call as a relation, so that no later
proof opens `executeCas`.
-/

namespace CassandraVerified.Paxos

open Std (ExtTreeMap)
open Storage (Bytes)
open PaxosReplica

variable {s : PaxosState} {p : Proposal}

/-- An answer is an earlier one or the last one. -/
theorem getElem?_concat_cases {α : Type} {l : List α} {a b : α} {j : Nat}
    (h : (l ++ [a])[j]? = some b) : l[j]? = some b ∨ j = l.length ∧ a = b := by
  rcases lt_or_ge j l.length with hj | hj
  · exact .inl (List.getElem?_append_left hj ▸ h)
  · rw [List.getElem?_append_right hj, List.getElem?_singleton] at h
    split at h
    · exact .inr ⟨by omega, Option.some.inj h⟩
    · cases h

namespace PaxosState

theorem prepare_spec (s : PaxosState) (b : Ballot) :
    (s.prepare b).1.accepted = s.accepted ∧ (s.prepare b).1.committed = s.committed ∧
      (s.prepare b).1.promised = decide (s.promised ≤ b) ∧
      (s.prepare b).2 = { s with promised := max s.promised b } := by
  unfold prepare
  split_ifs with hlt heq
  · simp [hlt.le]
  · subst heq
    simp
  · have hle : ¬s.promised ≤ b := fun h => (lt_or_eq_of_le h).elim hlt fun he => heq he.symm
    simp [hle, (not_le.1 hle).le]

theorem propose_of_le (h : s.promised ≤ p.ballot) :
    s.propose p = (⟨true, p.ballot⟩, { s with promised := p.ballot, accepted := some p }) :=
  if_pos h

theorem propose_of_lt (h : p.ballot < s.promised) : s.propose p = (⟨false, s.promised⟩, s) :=
  if_neg (not_le.2 h)

theorem commit_promised (s : PaxosState) (p : Proposal) : (s.commit p).promised = s.promised := rfl

theorem committed_commit {c : Proposal} (h : (s.commit p).committed = some c) :
    c = p ∨ s.committed = some c := by
  unfold commit at h
  dsimp only at h
  split at h
  · exact .inl (Option.some.inj h).symm
  · exact .inr h

theorem exists_committed_commit (s : PaxosState) (p : Proposal) :
    ∃ d, (s.commit p).committed = some d ∧ p.ballot ≤ d.ballot ∧
      ∀ c, s.committed = some c → c.ballot ≤ d.ballot := by
  cases hc : s.committed with
  | none => exact ⟨p, by simp [commit, hc], le_rfl, by simp⟩
  | some c =>
    by_cases hlt : c.ballot < p.ballot
    · refine ⟨p, by simp [commit, hc, hlt], le_rfl, ?_⟩
      rintro _ ⟨⟩
      exact hlt.le
    · refine ⟨c, by simp [commit, hc, hlt], not_lt.1 hlt, ?_⟩
      rintro _ ⟨⟩
      exact le_rfl

theorem accepted_of_commit {q : Proposal} (h : (s.commit p).accepted = some q) :
    s.accepted = some q :=
  (Option.filter_eq_some_iff.1 h).1

theorem accepted_or_committed {q : Proposal} (h : s.accepted = some q)
    (hgone : (s.commit p).accepted ≠ some q) :
    ∃ c, (s.commit p).committed = some c ∧ q.ballot ≤ c.ballot := by
  obtain ⟨c, hc, -, -⟩ := s.exists_committed_commit p
  refine ⟨c, hc, not_lt.1 fun hlt => hgone ?_⟩
  have hacc : (s.commit p).accepted =
      s.accepted.filter fun acc => ¬acc.ballot ≤ ((s.commit p).committed.map (·.ballot)).getD .none :=
    rfl
  rw [hacc, h, hc, Option.filter_some]
  simp [hlt]

end PaxosState

namespace PaxosReplica

@[simp]
theorem state_new (k : Bytes) : PaxosReplica.new.state k = .new := by
  simp [new, state]

@[simp]
theorem state_setState_self (r : PaxosReplica) (k : Bytes) (s : PaxosState) :
    (r.setState k s).state k = s := by
  simp [setState, state]

theorem state_setState_of_ne (r : PaxosReplica) {k k' : Bytes} (h : k' ≠ k) (s : PaxosState) :
    (r.setState k s).state k' = r.state k' := by
  simp [setState, state, ExtTreeMap.getElem?_insert, h.symm]

theorem state_update (replicas : Nat → PaxosReplica) (r₀ : Nat) (k₀ : Bytes) (s : PaxosState)
    (r : Nat) (k : Bytes) :
    (Function.update replicas r₀ ((replicas r₀).setState k₀ s) r).state k =
      if r = r₀ ∧ k = k₀ then s else (replicas r).state k := by
  by_cases hr : r = r₀
  · subst hr
    by_cases hk : k = k₀
    · subst hk
      simp
    · simp [hk, state_setState_of_ne]
  · simp [hr]

theorem state_update_self (replicas : Nat → PaxosReplica) (r₀ : Nat) (k₀ : Bytes) (r : Nat)
    (k : Bytes) :
    (Function.update replicas r₀ ((replicas r₀).setState k₀ ((replicas r₀).state k₀)) r).state k =
      (replicas r).state k := by
  rw [state_update]
  split
  · next h => rw [h.1, h.2]
  · rfl

theorem handlePrepare_spec (r : PaxosReplica) (msg : PaxosPrepare) :
    let s := r.state msg.partitionKey
    (r.handlePrepare msg).1.inProgress = s.accepted ∧
      (r.handlePrepare msg).1.promised = decide (s.promised ≤ msg.ballot) ∧
      (r.handlePrepare msg).2 =
        r.setState msg.partitionKey { s with promised := max s.promised msg.ballot } := by
  obtain ⟨hacc, -, hprom, hstate⟩ := (r.state msg.partitionKey).prepare_spec msg.ballot
  exact ⟨hacc, hprom, by rw [← hstate]; rfl⟩

theorem mostRecentCommit_handlePrepare (r : PaxosReplica) (msg : PaxosPrepare) :
    (r.handlePrepare msg).1.mostRecentCommit = (r.state msg.partitionKey).committed :=
  ((r.state msg.partitionKey).prepare_spec msg.ballot).2.1

end PaxosReplica

theorem CasCall.handlePropose_of_le (call : CasCall) {r : PaxosReplica}
    (h : (r.state call.partitionKey).promised ≤ p.ballot) :
    r.handlePropose (call.proposeMsg p) = (⟨true, p.ballot⟩, r.setState call.partitionKey
        { r.state call.partitionKey with promised := p.ballot, accepted := some p }) := by
  simp only [PaxosReplica.handlePropose, proposeMsg, PaxosState.propose_of_le h]

theorem CasCall.handlePropose_of_lt (call : CasCall) {r : PaxosReplica}
    (h : p.ballot < (r.state call.partitionKey).promised) :
    r.handlePropose (call.proposeMsg p) = (⟨false, (r.state call.partitionKey).promised⟩,
      r.setState call.partitionKey (r.state call.partitionKey)) := by
  simp only [PaxosReplica.handlePropose, proposeMsg, PaxosState.propose_of_lt h]

/-- What a step of `executeCas` can do: the phase before and after, the replicas afterwards, and
what is recorded. -/
inductive Move (call : CasCall) (input : Input) (replicas : Nat → PaxosReplica) :
    CasPhase → CasPhase → (Nat → PaxosReplica) → List Event → Prop where
  | start {attempts} (h : attempts < call.coordinator.maxContentionRetries) :
    Move call input replicas (.idle attempts)
      (.preparing (attempts + 1) (call.ballot (attempts + 1) input.clock) []) replicas
      [.started (call.ballot (attempts + 1) input.clock)]
  | abort {attempts} (h : ¬attempts < call.coordinator.maxContentionRetries) :
    Move call input replicas (.idle attempts)
      (.returned (.contentionAborted call.coordinator.maxContentionRetries)) replicas
      [.returned (.contentionAborted call.coordinator.maxContentionRetries)]
  | prepare {attempts ballot promises r} (h : call.coordinator.replicas[promises.length]? = some r) :
    Move call input replicas (.preparing attempts ballot promises) (.preparing attempts ballot
        (promises ++ [((replicas r).handlePrepare (call.prepareMsg ballot)).1]))
      (Function.update replicas r ((replicas r).handlePrepare (call.prepareMsg ballot)).2)
      [.promised r ((replicas r).handlePrepare (call.prepareMsg ballot)).1]
  | giveUp {attempts ballot promises} (h : call.coordinator.replicas[promises.length]? = none)
    (hquorum : promises.countP (·.promised) < call.coordinator.quorumSize) :
    Move call input replicas (.preparing attempts ballot promises) (.idle attempts) replicas []
  | adopt {attempts ballot promises adopted}
    (h : call.coordinator.replicas[promises.length]? = none)
    (hquorum : call.coordinator.quorumSize ≤ promises.countP (·.promised))
    (hadopt : inProgress promises = some adopted) :
    Move call input replicas (.preparing attempts ballot promises)
      (.proposing attempts ⟨ballot, adopted.mutation⟩ true []) replicas
      [.collected ballot, .proposed ⟨ballot, adopted.mutation⟩ (some adopted.ballot)]
  | collect {attempts ballot promises} (h : call.coordinator.replicas[promises.length]? = none)
    (hquorum : call.coordinator.quorumSize ≤ promises.countP (·.promised))
    (hnone : inProgress promises = none) :
    Move call input replicas (.preparing attempts ballot promises) (.reading attempts ballot)
      replicas [.collected ballot]
  | met {attempts ballot} (h : call.condition input.row = true) :
    Move call input replicas (.reading attempts ballot)
      (.proposing attempts ⟨ballot, call.mutation⟩ false []) replicas
      [.proposed ⟨ballot, call.mutation⟩ none]
  | notMet {attempts ballot} (h : call.condition input.row = false) :
    Move call input replicas (.reading attempts ballot)
      (.returned (.conditionNotMet (input.row.getD []))) replicas
      [.returned (.conditionNotMet (input.row.getD []))]
  | propose {attempts proposal adopted accepts r}
    (h : call.coordinator.replicas[accepts.length]? = some r) :
    Move call input replicas (.proposing attempts proposal adopted accepts)
      (.proposing attempts proposal adopted
        (accepts ++ [((replicas r).handlePropose (call.proposeMsg proposal)).1]))
      (Function.update replicas r ((replicas r).handlePropose (call.proposeMsg proposal)).2)
      (if ((replicas r).handlePropose (call.proposeMsg proposal)).1.accepted then
        [.accepted r proposal] else [])
  | refused {attempts proposal adopted accepts}
    (h : call.coordinator.replicas[accepts.length]? = none)
    (hquorum : accepts.countP (·.accepted) < call.coordinator.quorumSize) :
    Move call input replicas (.proposing attempts proposal adopted accepts) (.idle attempts)
      replicas []
  | chosen {attempts proposal adopted accepts}
    (h : call.coordinator.replicas[accepts.length]? = none)
    (hquorum : call.coordinator.quorumSize ≤ accepts.countP (·.accepted)) :
    Move call input replicas (.proposing attempts proposal adopted accepts)
      (.committing attempts proposal adopted 0) replicas []
  | commit {attempts proposal adopted sent r} (h : call.coordinator.replicas[sent]? = some r) :
    Move call input replicas (.committing attempts proposal adopted sent)
      (.committing attempts proposal adopted (sent + 1))
      (Function.update replicas r ((replicas r).handleCommit (call.commitMsg proposal)))
      [.applied r proposal]
  | recovered {attempts proposal sent} (h : call.coordinator.replicas[sent]? = none) :
    Move call input replicas (.committing attempts proposal true sent) (.idle attempts) replicas []
  | succeed {attempts proposal sent} (h : call.coordinator.replicas[sent]? = none) :
    Move call input replicas (.committing attempts proposal false sent) (.returned .success)
      replicas [.returned .success]
  | stay {result} : Move call input replicas (.returned result) (.returned result) replicas []

theorem CasCall.executeCas_move (call : CasCall) (input : Input) (replicas : Nat → PaxosReplica)
    (phase : CasPhase) :
    Move call input replicas phase (call.executeCas input replicas phase).1
      (call.executeCas input replicas phase).2.1 (call.executeCas input replicas phase).2.2 := by
  cases phase with
  | idle attempts =>
    by_cases h : attempts < call.coordinator.maxContentionRetries
    · simpa [executeCas, h] using .start h
    · simpa [executeCas, h] using .abort h
  | preparing attempts ballot promises =>
    cases h : call.coordinator.replicas[promises.length]? with
    | some r => simpa [executeCas, h] using .prepare h
    | none =>
      by_cases hquorum : promises.countP (·.promised) < call.coordinator.quorumSize
      · simpa [executeCas, h, decide, hquorum] using .giveUp h hquorum
      · cases hadopt : inProgress promises with
        | some adopted =>
          simpa [executeCas, h, decide, hquorum, hadopt] using .adopt h (not_lt.1 hquorum) hadopt
        | none =>
          simpa [executeCas, h, decide, hquorum, hadopt] using .collect h (not_lt.1 hquorum) hadopt
  | reading attempts ballot =>
    cases h : call.condition input.row with
    | true => simpa [executeCas, evaluate, h] using .met h
    | false => simpa [executeCas, evaluate, h] using .notMet h
  | proposing attempts proposal adopted accepts =>
    cases h : call.coordinator.replicas[accepts.length]? with
    | some r => simpa only [executeCas, h] using .propose h
    | none =>
      by_cases hquorum : accepts.countP (·.accepted) < call.coordinator.quorumSize
      · simpa [executeCas, h, hquorum] using .refused h hquorum
      · simpa [executeCas, h, hquorum] using .chosen h (not_lt.1 hquorum)
  | committing attempts proposal adopted sent =>
    cases h : call.coordinator.replicas[sent]? with
    | some r => simpa [executeCas, h] using .commit h
    | none =>
      cases adopted with
      | true => simpa [executeCas, h] using .recovered h
      | false => simpa [executeCas, h] using .succeed h
  | returned result => exact .stay

namespace Move

variable {call : CasCall} {input : Input} {R R' : Nat → PaxosReplica} {before phase : CasPhase}
  {events : List Event}

section

variable (h : Move call input R before phase R' events)

include h

/-- What a step does to the state of a partition at a replica. -/
theorem state_cases (r : Nat) (k : Bytes) :
    ((R' r).state k = (R r).state k ∧ (k = call.partitionKey → ∀ q, .accepted r q ∉ events)) ∨
      k = call.partitionKey ∧
        ((∃ b, (R' r).state k = { (R r).state k with promised := max ((R r).state k).promised b } ∧
          ∀ q, .accepted r q ∉ events) ∨
        (∃ attempts q adopted accepts, before = .proposing attempts q adopted accepts ∧
          ((R r).state k).promised ≤ q.ballot ∧ events = [.accepted r q] ∧
          (R' r).state k = { (R r).state k with promised := q.ballot, accepted := some q }) ∨
        ∃ q, (R' r).state k = ((R r).state k).commit q ∧ events = [.applied r q]) := by
  cases h with
  | @prepare _ ballot _ r₀ _ =>
    obtain ⟨-, -, hstate⟩ := (R r₀).handlePrepare_spec (call.prepareMsg ballot)
    rw [hstate, state_update]
    split
    · next hrk =>
      obtain ⟨rfl, rfl⟩ := hrk
      exact .inr ⟨rfl, .inl ⟨ballot, rfl, by simp⟩⟩
    · exact .inl ⟨rfl, by simp⟩
  | @propose attempts proposal adopted accepts r₀ _ =>
    rcases le_or_gt ((R r₀).state call.partitionKey).promised proposal.ballot with hle | hlt
    · rw [call.handlePropose_of_le hle, state_update, if_pos rfl]
      split
      · next hrk =>
        obtain ⟨rfl, rfl⟩ := hrk
        exact .inr ⟨rfl, .inr (.inl ⟨attempts, proposal, adopted, accepts, rfl, hle, rfl, rfl⟩)⟩
      · next hrk =>
        refine .inl ⟨rfl, fun hk q hq => hrk ⟨?_, hk⟩⟩
        simp only [List.mem_singleton, Event.accepted.injEq] at hq
        exact hq.1
    · rw [call.handlePropose_of_lt hlt, state_update_self]
      exact .inl ⟨rfl, by simp⟩
  | @commit _ proposal _ _ r₀ _ =>
    rw [PaxosReplica.handleCommit, state_update]
    split
    · next hrk =>
      obtain ⟨rfl, rfl⟩ := hrk
      exact .inr ⟨rfl, .inr (.inr ⟨proposal, rfl, rfl⟩)⟩
    · exact .inl ⟨rfl, by simp⟩
  | _ => exact .inl ⟨rfl, by simp⟩

/-- Promises only grow. -/
theorem promised_le (r : Nat) (k : Bytes) :
    ((R r).state k).promised ≤ ((R' r).state k).promised := by
  obtain ⟨hstate, -⟩ | ⟨-, ⟨b, hstate, -⟩ | ⟨_, q, _, _, -, hle, -, hstate⟩ | ⟨q, hstate, -⟩⟩ :=
    h.state_cases r k <;> rw [hstate]
  · exact le_max_left _ _
  · exact hle
  · rfl

theorem promised_le_of_accepted {r : Nat} (hp : .accepted r p ∈ events) :
    ((R r).state call.partitionKey).promised ≤ p.ballot := by
  cases h with
  | @propose _ proposal _ _ r₀ _ =>
    rcases le_or_gt ((R r₀).state call.partitionKey).promised proposal.ballot with hle | hlt
    · rw [call.handlePropose_of_le hle, if_pos rfl] at hp
      simp only [List.mem_singleton, Event.accepted.injEq] at hp
      rw [hp.1, hp.2]
      exact hle
    · rw [call.handlePropose_of_lt hlt] at hp
      simp at hp
  | _ => simp at hp

theorem of_proposed {adopted : Option Ballot} (hp : .proposed p adopted ∈ events) :
    (∀ r q, .accepted r q ∉ events) ∧
      ((∃ attempts promises, before = .preparing attempts p.ballot promises) ∨
        ∃ attempts, before = .reading attempts p.ballot) := by
  cases h with
  | @adopt attempts _ promises _ _ _ _ =>
    simp only [List.mem_cons, reduceCtorEq, Event.proposed.injEq, false_or, List.not_mem_nil,
      or_false] at hp
    obtain ⟨rfl, -⟩ := hp
    exact ⟨by simp, .inl ⟨attempts, promises, rfl⟩⟩
  | @met attempts _ _ =>
    simp only [List.mem_singleton, Event.proposed.injEq] at hp
    obtain ⟨rfl, -⟩ := hp
    exact ⟨by simp, .inr ⟨attempts, rfl⟩⟩
  | propose _ => split at hp <;> simp at hp
  | _ => simp at hp

end

end Move

namespace System

def after (s : System) (i : Nat) (phase : CasPhase) (replicas : Nat → PaxosReplica)
    (events : List Event) : System :=
  ⟨replicas, Function.update s.phases i phase, s.trace ++ events.map (Prod.mk i)⟩

section after

variable (s : System) (i : Nat) (phase : CasPhase) (replicas : Nat → PaxosReplica)
  (events : List Event)

@[simp]
theorem after_replicas : (s.after i phase replicas events).replicas = replicas := rfl

@[simp]
theorem after_phases_self : (s.after i phase replicas events).phases i = phase :=
  Function.update_self ..

variable {s i phase replicas events} in
theorem after_phases_of_ne {j : Nat} (h : j ≠ i) :
    (s.after i phase replicas events).phases j = s.phases j :=
  Function.update_of_ne h ..

variable {s i phase replicas events} in
/-- After a step, a phase is the new one of the call that moved or an old one. -/
theorem phases_after_cases {j : Nat} {now : CasPhase}
    (h : (s.after i phase replicas events).phases j = now) :
    j = i ∧ phase = now ∨ s.phases j = now := by
  by_cases hj : j = i
  · subst hj
    exact .inl ⟨rfl, after_phases_self s j phase replicas events ▸ h⟩
  · exact .inr (after_phases_of_ne hj ▸ h)

@[simp]
theorem after_trace :
    (s.after i phase replicas events).trace = s.trace ++ events.map (Prod.mk i) := rfl

theorem mem_trace_after {j : Nat} {e : Event} :
    (j, e) ∈ (s.after i phase replicas events).trace ↔ (j, e) ∈ s.trace ∨ j = i ∧ e ∈ events := by
  simp [and_comm, eq_comm]

end after

theorem step_move (calls : Nat → CasCall) (s : System) (i : Nat) (input : Input) :
    ∃ phase replicas events, Move (calls i) input s.replicas (s.phases i) phase replicas events ∧
      s.step calls (i, input) = s.after i phase replicas events :=
  ⟨_, _, _, (calls i).executeCas_move input s.replicas (s.phases i), rfl⟩

end System

end CassandraVerified.Paxos
