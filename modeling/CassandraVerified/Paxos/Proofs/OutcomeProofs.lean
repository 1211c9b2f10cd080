import CassandraVerified.Paxos.Outcome
import CassandraVerified.Paxos.Proofs.AgreementProofs

/-!
# Outcomes

As long as no round meets the accepted proposal of a call that has not given up, such a call's
mutation is proposed in its own rounds only; of these only the last one is committed, and then the
call returns success.
-/

namespace CassandraVerified.Paxos

open List
open Paxos.System

variable {calls : Nat → CasCall}

variable {j r : Nat} {b : Ballot} {p : Proposal}

/-- The proposal of a phase is the call's own unless the phase says otherwise, and the replicas
counted have the commit. -/
def ProposalOf (calls : Nat → CasCall) (trace : List (Nat × Event)) (i : Nat) : CasPhase → Prop
  | .proposing _ p adopted accepts =>
    (∃ a : Option Ballot, (i, .proposed p a) ∈ trace ∧ adopted = a.isSome) ∧
      accepts.length ≤ (calls i).coordinator.replicas.length
  | .committing _ p adopted sent =>
    (∃ a : Option Ballot, (i, .proposed p a) ∈ trace ∧ adopted = a.isSome) ∧
      (calls i).coordinator.replicas ≠ [] ∧
      ∀ j < sent, ∀ r, (calls i).coordinator.replicas[j]? = some r → (i, .applied r p) ∈ trace
  | _ => True

/-- What the phases and the returned results say about the proposals. -/
structure OutcomeInv (calls : Nat → CasCall) (s : System) : Prop where
  phase : ∀ i, ProposalOf calls s.trace i (s.phases i)
  returned : ∀ {i result}, (i, .returned result) ∈ s.trace → s.phases i = .returned result
  /-- What a round takes over was proposed before. -/
  earlier : ∀ {i p b}, (i, .proposed p (some b)) ∈ s.trace →
    ∃ j p' a, (j, .proposed p' a) ∈ s.trace ∧ p'.ballot = b
  reported : ∀ {i attempts b promises}, s.phases i = .preparing attempts b promises →
    ∀ promise ∈ promises, ∀ q, promise.inProgress = some q →
      (∃ j a, (j, .proposed q a) ∈ s.trace) ∧ ∀ l, Carries s.trace l q.ballot → s.Aborted l
  takenOver : ∀ {i p b}, (i, .proposed p (some b)) ∈ s.trace →
    ∀ l, Carries s.trace l b → s.Aborted l
  applied : ∀ {i r p}, (i, .applied r p) ∈ s.trace → ∃ a, (i, .proposed p a) ∈ s.trace ∧
    (a = none → (∃ attempts sent, s.phases i = .committing attempts p false sent) ∨
      s.phases i = .returned .success)
  once : ∀ {i r r' p p'}, (i, .applied r p) ∈ s.trace → (i, .applied r' p') ∈ s.trace →
    (i, .proposed p none) ∈ s.trace → (i, .proposed p' none) ∈ s.trace → p = p'
  succeeded : ∀ {i}, (i, .returned .success) ∈ s.trace →
    ∃ r p, (i, .proposed p none) ∈ s.trace ∧ (i, .applied r p) ∈ s.trace

theorem ProposalOf.mono {trace : List (Nat × Event)} {i : Nat}
    {phase : CasPhase} (h : ProposalOf calls trace i phase) (l : List (Nat × Event)) :
    ProposalOf calls (trace ++ l) i phase := by
  cases phase with
  | proposing attempts p adopted accepts =>
    obtain ⟨⟨a, ha, hadopted⟩, hlen⟩ := h
    exact ⟨⟨a, mem_append_left _ ha, hadopted⟩, hlen⟩
  | committing attempts p adopted sent =>
    obtain ⟨⟨a, ha, hadopted⟩, hne, hsent⟩ := h
    exact ⟨⟨a, mem_append_left _ ha, hadopted⟩, hne,
      fun j hj r hr => mem_append_left _ (hsent j hj r hr)⟩
  | _ => trivial

section after

variable {s : System} {i : Nat} {phase : CasPhase}
  {replicas : Nat → PaxosReplica} {events : List Event} {input : Input}

section

variable (hmove : Move (calls i) input s.replicas (s.phases i) phase replicas events)

include hmove

theorem phases_of_returned {result : CasResult} (h : s.phases j = .returned result) :
    (s.after i phase replicas events).phases j = .returned result := by
  by_cases hj : j = i
  · subst hj
    rw [h] at hmove
    cases hmove
    exact after_phases_self ..
  · rw [after_phases_of_ne hj, h]

theorem System.Aborted.after (h : s.Aborted j) : (s.after i phase replicas events).Aborted j := by
  obtain ⟨attempts, hphase⟩ := h
  exact ⟨attempts, phases_of_returned hmove hphase⟩

theorem Carries.of_after (hinv : OutcomeInv calls s) (hrounds : Rounds s) {l : Nat}
    (h : Carries (s.after i phase replicas events).trace l b)
    (hold : ∃ j p a, (j, .proposed p a) ∈ s.trace ∧ p.ballot = b) : Carries s.trace l b := by
  induction h with
  | own hmem =>
    rcases (mem_trace_after ..).1 hmem with hmem | ⟨rfl, hnew⟩
    · exact .own hmem
    · obtain ⟨j, q, a, hq, hb⟩ := hold
      exact absurd hb (hrounds.fresh_of_proposed hmove hnew hq)
  | takenOver hmem _ ih =>
    rcases (mem_trace_after ..).1 hmem with hmem | ⟨rfl, hnew⟩
    · exact .takenOver hmem (ih (hinv.earlier hmem))
    · obtain ⟨j, q, a, hq, hb⟩ := hold
      exact absurd hb (hrounds.fresh_of_proposed hmove hnew hq)

end

end after

namespace OutcomeInv

variable {nodes : List Nat} {s : System} {i : Nat} {phase : CasPhase}
  {replicas : Nat → PaxosReplica} {events : List Event} {input : Input}

theorem new : OutcomeInv calls .new where
  phase _ := trivial
  returned h := nomatch h
  earlier h := nomatch h
  reported h := nomatch h
  takenOver h := nomatch h
  applied h := nomatch h
  once h := nomatch h
  succeeded h := nomatch h

section

variable (h : OutcomeInv calls s)
  (hmove : Move (calls i) input s.replicas (s.phases i) phase replicas events)

include h hmove

theorem phase_after (hshares : Shares calls nodes) (j : Nat) :
    ProposalOf calls (s.after i phase replicas events).trace j
      ((s.after i phase replicas events).phases j) := by
  by_cases hj : j = i
  · subst hj
    rw [after_phases_self]
    have hphase := (h.phase j).mono (events.map (Prod.mk j))
    generalize s.phases j = before at hmove hphase
    cases hmove with
    | @adopt _ _ _ adopted _ _ _ =>
      exact ⟨⟨some adopted.ballot, (mem_trace_after ..).2 (.inr ⟨rfl, by simp⟩), rfl⟩, by simp⟩
    | met _ =>
      exact ⟨⟨none, (mem_trace_after ..).2 (.inr ⟨rfl, by simp⟩), rfl⟩, by simp⟩
    | propose hr =>
      refine ⟨hphase.1, ?_⟩
      have hlt := (List.getElem?_eq_some_iff.1 hr).1
      simpa using hlt
    | chosen _ hquorum =>
      refine ⟨hphase.1, fun hnil => ?_, fun l hl => absurd hl (Nat.not_lt_zero l)⟩
      have hlen := hphase.2
      have hcount := hquorum.trans countP_le_length
      have hmajority := hshares.majority j
      have hnodes := (hshares.perm j).length_eq
      rw [hnil, length_nil] at hlen hnodes
      omega
    | @commit _ _ _ sent r hr =>
      refine ⟨hphase.1, hphase.2.1, fun l hl r' hr' => ?_⟩
      rcases Nat.lt_succ_iff_lt_or_eq.1 hl with hlt | rfl
      · exact hphase.2.2 l hlt r' hr'
      · obtain rfl := Option.some.inj (hr.symm.trans hr')
        exact (mem_trace_after ..).2 (.inr ⟨rfl, by simp⟩)
    | _ => trivial
  · rw [after_phases_of_ne hj]
    exact (h.phase j).mono _

theorem returned_after {result : CasResult}
    (hmem : (j, .returned result) ∈ (s.after i phase replicas events).trace) :
    (s.after i phase replicas events).phases j = .returned result := by
  rcases (mem_trace_after ..).1 hmem with hold | ⟨rfl, hnew⟩
  · exact phases_of_returned hmove (h.returned hold)
  · rw [after_phases_self]
    generalize s.phases j = before at hmove
    cases hmove with
    | propose _ => split at hnew <;> simp at hnew
    | _ => simp_all

theorem of_adopted (hnew : .proposed p (some b) ∈ events) :
    (∃ j q a, (j, .proposed q a) ∈ s.trace ∧ q.ballot = b) ∧
      ∀ l, Carries s.trace l b → s.Aborted l := by
  generalize hbefore : s.phases i = before at hmove
  cases hmove with
  | adopt _ _ hadopt =>
    simp only [mem_cons, reduceCtorEq, Event.proposed.injEq, Option.some.injEq, false_or,
      not_mem_nil, or_false] at hnew
    obtain ⟨promise, hpromise, hin⟩ := mem_filterMap.1 (mem_maxByBallot hadopt).1
    obtain ⟨⟨j, a, hj⟩, haborted⟩ := h.reported hbefore promise hpromise _ hin
    rw [hnew.2]
    exact ⟨⟨j, _, a, hj, rfl⟩, haborted⟩
  | propose _ => split at hnew <;> simp at hnew
  | _ => simp at hnew

theorem earlier_after (hmem : (j, .proposed p (some b)) ∈ (s.after i phase replicas events).trace) :
    ∃ l p' a, (l, .proposed p' a) ∈ s.trace ∧ p'.ballot = b := by
  rcases (mem_trace_after ..).1 hmem with hold | ⟨rfl, hnew⟩
  · exact h.earlier hold
  · exact (h.of_adopted hmove hnew).1

theorem takenOver_after (hrounds : Rounds s)
    (hmem : (j, .proposed p (some b)) ∈ (s.after i phase replicas events).trace) {l : Nat}
    (hl : Carries (s.after i phase replicas events).trace l b) :
    (s.after i phase replicas events).Aborted l := by
  have hcarries := hl.of_after hmove h hrounds (h.earlier_after hmove hmem)
  rcases (mem_trace_after ..).1 hmem with hold | ⟨rfl, hnew⟩
  · exact (h.takenOver hold l hcarries).after hmove
  · exact ((h.of_adopted hmove hnew).2 l hcarries).after hmove

theorem reported_after (hinv : Inv calls nodes s) (hundisturbed : Undisturbed calls s (i, input))
    {attempts : Nat} {promises : List PaxosPromise}
    (hphase : (s.after i phase replicas events).phases j = .preparing attempts b promises)
    {promise : PaxosPromise} (hpromise : promise ∈ promises) {q : Proposal}
    (hq : promise.inProgress = some q) :
    (∃ l a, (l, .proposed q a) ∈ (s.after i phase replicas events).trace) ∧
      ∀ l, Carries (s.after i phase replicas events).trace l q.ballot →
        (s.after i phase replicas events).Aborted l := by
  -- it is enough that the report was true before the step
  suffices hbefore : (∃ l a, (l, .proposed q a) ∈ s.trace) ∧
      ∀ l, Carries s.trace l q.ballot → s.Aborted l by
    obtain ⟨⟨l, a, hl⟩, haborted⟩ := hbefore
    refine ⟨⟨l, a, mem_append_left _ hl⟩, fun l' hl' => ?_⟩
    exact (haborted l' (hl'.of_after hmove h hinv.rounds ⟨l, q, a, hl, rfl⟩)).after hmove
  rcases phases_after_cases hphase with ⟨rfl, rfl⟩ | hphase
  · generalize hbefore : s.phases j = before at hmove
    cases hmove with
    | start _ => simp at hpromise
    | @prepare _ _ promises r hr =>
      rcases mem_append.1 hpromise with hold | hnew
      · exact h.reported hbefore promise hold q hq
      · rw [mem_singleton.1 hnew, ((s.replicas r).handlePrepare_spec _).1] at hq
        obtain ⟨l, a, -, hl⟩ := ((hinv.replica _ _).accepted hq).2
        exact ⟨⟨l, a, hl⟩, hundisturbed _ _ _ r q hbefore hr hq⟩
  · exact h.reported hphase promise hpromise q hq

theorem of_applied (hnew : .applied r p ∈ events) :
    ∃ attempts adopted sent a, s.phases i = .committing attempts p adopted sent ∧
      phase = .committing attempts p adopted (sent + 1) ∧ (i, .proposed p a) ∈ s.trace ∧
      adopted = a.isSome := by
  have hphase := h.phase i
  generalize s.phases i = before at hmove hphase
  cases hmove with
  | @commit attempts p adopted sent r _ =>
    simp only [mem_singleton, Event.applied.injEq] at hnew
    obtain ⟨-, rfl⟩ := hnew
    obtain ⟨⟨a, ha, hadopted⟩, -⟩ := hphase
    exact ⟨attempts, adopted, sent, a, rfl, rfl, ha, hadopted⟩
  | propose _ => split at hnew <;> simp at hnew
  | _ => simp at hnew

theorem applied_after (hmem : (j, .applied r p) ∈ (s.after i phase replicas events).trace) :
    ∃ a, (j, .proposed p a) ∈ s.trace ∧ (a = none →
        (∃ attempts sent, (s.after i phase replicas events).phases j =
          .committing attempts p false sent) ∨
        (s.after i phase replicas events).phases j = .returned .success) := by
  rcases (mem_trace_after ..).1 hmem with hold | ⟨rfl, hnew⟩
  · obtain ⟨a, ha, hphase⟩ := h.applied hold
    refine ⟨a, ha, fun hnone => ?_⟩
    rcases hphase hnone with ⟨attempts, sent, hcommitting⟩ | hsuccess
    · by_cases hj : j = i
      · subst hj
        rw [after_phases_self]
        rw [hcommitting] at hmove
        cases hmove with
        | commit _ => exact .inl ⟨_, _, rfl⟩
        | succeed _ => exact .inr rfl
      · rw [after_phases_of_ne hj]
        exact .inl ⟨attempts, sent, hcommitting⟩
    · exact .inr (phases_of_returned hmove hsuccess)
  · obtain ⟨attempts, adopted, sent, a, -, hphase, ha, hadopted⟩ := h.of_applied hmove hnew
    refine ⟨a, ha, fun hnone => .inl ⟨attempts, sent + 1, ?_⟩⟩
    rw [after_phases_self, hphase, hadopted, hnone]
    rfl

/-- Two commits of a call's own proposals are of the same one, also if one of them happens now. -/
theorem once_after (hrounds : Rounds s) {r' : Nat} {p' : Proposal}
    (hp : (j, .applied r p) ∈ (s.after i phase replicas events).trace)
    (hp' : (j, .applied r' p') ∈ (s.after i phase replicas events).trace)
    (hown : (j, .proposed p none) ∈ s.trace) (hown' : (j, .proposed p' none) ∈ s.trace) :
    p = p' := by
  -- a commit that happened before puts the call into the commit phase of its proposal
  have hsame : ∀ {q q' : Proposal} {l l' : Nat}, (j, .applied l q) ∈ s.trace →
      (j, .proposed q none) ∈ s.trace → j = i → .applied l' q' ∈ events → q = q' := by
    rintro q q' l l' hq hqown rfl hnew
    obtain ⟨attempts, adopted, sent, a, hphase, -⟩ := h.of_applied hmove hnew
    obtain ⟨a', ha', hcommitting⟩ := h.applied hq
    rcases hcommitting (hrounds.unique ha' hqown rfl).2 with ⟨attempts', sent', hphase'⟩ | hsuccess
    · rw [hphase] at hphase'
      simp only [CasPhase.committing.injEq] at hphase'
      exact hphase'.2.1.symm
    · rw [hphase] at hsuccess
      simp at hsuccess
  rcases (mem_trace_after ..).1 hp with hold | ⟨hj, hnew⟩
  · rcases (mem_trace_after ..).1 hp' with hold' | ⟨hj, hnew'⟩
    · exact h.once hold hold' hown hown'
    · exact hsame hold hown hj hnew'
  · rcases (mem_trace_after ..).1 hp' with hold' | ⟨-, hnew'⟩
    · exact (hsame hold' hown' hj hnew).symm
    · obtain rfl := hj
      obtain ⟨_, _, _, _, hphase, -⟩ := h.of_applied hmove hnew
      obtain ⟨_, _, _, _, hphase', -⟩ := h.of_applied hmove hnew'
      rw [hphase] at hphase'
      simp only [CasPhase.committing.injEq] at hphase'
      exact hphase'.2.1

theorem succeeded_after (hmem : (j, .returned .success) ∈ (s.after i phase replicas events).trace) :
    ∃ r p, (j, .proposed p none) ∈ s.trace ∧ (j, .applied r p) ∈ s.trace := by
  rcases (mem_trace_after ..).1 hmem with hold | ⟨rfl, hnew⟩
  · exact h.succeeded hold
  · have hphase := h.phase j
    generalize s.phases j = before at hmove hphase
    cases hmove with
    | @succeed _ p sent hall =>
      obtain ⟨⟨a, ha, hadopted⟩, hne, hsent⟩ := hphase
      obtain rfl : a = none := by simpa using hadopted.symm
      have hlen : (calls j).coordinator.replicas.length ≤ sent := List.getElem?_eq_none_iff.1 hall
      have hpos := length_pos_iff.2 hne
      exact ⟨_, p, ha, hsent 0 (hpos.trans_le hlen) _ (List.getElem?_eq_getElem hpos)⟩
    | propose _ => split at hnew <;> simp at hnew
    | _ => simp at hnew

theorem after (hinv : Inv calls nodes s) (hshares : Shares calls nodes)
    (hundisturbed : Undisturbed calls s (i, input))
    (hrounds : Rounds (s.after i phase replicas events)) :
    OutcomeInv calls (s.after i phase replicas events) where
  phase := h.phase_after hmove hshares
  returned := h.returned_after hmove
  earlier hmem := by
    obtain ⟨l, p', a, hl, hb⟩ := h.earlier_after hmove hmem
    exact ⟨l, p', a, mem_append_left _ hl, hb⟩
  reported hphase _ hpromise _ hq := h.reported_after hmove hinv hundisturbed hphase hpromise hq
  takenOver hmem _ hl := h.takenOver_after hmove hinv.rounds hmem hl
  applied hmem := by
    obtain ⟨a, ha, hphase⟩ := h.applied_after hmove hmem
    exact ⟨a, mem_append_left _ ha, hphase⟩
  once := by
    intro j r r' p p' hp hp' hown hown'
    -- an applied proposal was made before this step, so it is the call's own already then
    have hbefore : ∀ {l q}, (j, .applied l q) ∈ (s.after i phase replicas events).trace →
        (j, .proposed q none) ∈ (s.after i phase replicas events).trace →
        (j, .proposed q none) ∈ s.trace := by
      intro l q hq hqown
      obtain ⟨a, ha, -⟩ := h.applied_after hmove hq
      rw [(hrounds.unique hqown (mem_append_left _ ha) rfl).2]
      exact ha
    exact h.once_after hmove hinv.rounds hp hp' (hbefore hp hown) (hbefore hp' hown')
  succeeded hmem := by
    obtain ⟨r, p, hown, happlied⟩ := h.succeeded_after hmove hmem
    exact ⟨r, p, mem_append_left _ hown, mem_append_left _ happlied⟩

end

theorem own_of_carries (h : OutcomeInv calls s) (hcarries : Carries s.trace i b)
    (hrunning : ¬s.Aborted i) : ∃ p, (i, .proposed p none) ∈ s.trace ∧ p.ballot = b := by
  cases hcarries with
  | own hmem => exact ⟨_, hmem, rfl⟩
  | takenOver hmem hcarries => exact absurd (h.takenOver hmem i hcarries) hrunning

theorem committedIn_iff (h : OutcomeInv calls s) (hrounds : Rounds s) (hrunning : ¬s.Aborted i) :
    CommittedIn s.trace i b ↔
      ∃ r p, (i, .proposed p none) ∈ s.trace ∧ (i, .applied r p) ∈ s.trace ∧ p.ballot = b := by
  constructor
  · rintro ⟨hcarries, j, r, p, happlied, rfl⟩
    obtain ⟨q, hq, hb⟩ := h.own_of_carries hcarries hrunning
    obtain ⟨a, ha, -⟩ := h.applied happlied
    obtain ⟨rfl, rfl, -⟩ := hrounds.eq_of_ballot hq ha hb
    exact ⟨r, q, hq, happlied, rfl⟩
  · rintro ⟨r, p, hown, happlied, rfl⟩
    exact ⟨.own hown, i, r, p, happlied, rfl⟩

theorem exactOutcomes (h : OutcomeInv calls s) (hrounds : Rounds s) : ExactOutcomes s := by
  intro i
  constructor
  · intro hreturned
    have hrunning : ¬s.Aborted i := by
      rintro ⟨attempts, hphase⟩
      rw [h.returned hreturned] at hphase
      simp at hphase
    obtain ⟨r, p, hown, happlied⟩ := h.succeeded hreturned
    refine ⟨p.ballot, (h.committedIn_iff hrounds hrunning).2 ⟨r, p, hown, happlied, rfl⟩, ?_⟩
    intro b hb
    obtain ⟨r', p', hown', happlied', rfl⟩ := (h.committedIn_iff hrounds hrunning).1 hb
    rw [h.once happlied happlied' hown hown']
  · rintro row hreturned ⟨b, hb⟩
    have hphase := h.returned hreturned
    have hrunning : ¬s.Aborted i := by
      rintro ⟨attempts, hphase'⟩
      rw [hphase] at hphase'
      simp at hphase'
    obtain ⟨r, p, hown, happlied, -⟩ := (h.committedIn_iff hrounds hrunning).1 hb
    obtain ⟨a, ha, hcommitting⟩ := h.applied happlied
    rcases hcommitting (hrounds.unique ha hown rfl).2 with ⟨attempts, sent, hphase'⟩ | hphase'
    · rw [hphase] at hphase'
      simp at hphase'
    · rw [hphase] at hphase'
      simp at hphase'

end OutcomeInv

variable {steps : List (Nat × Input)} {step : Nat × Input}

theorem outcomeInv_run {nodes : List Nat} (hshares : Shares calls nodes)
    (steps : List (Nat × Input)) (hdistinct : (System.run calls steps).DistinctBallots)
    (hevery : EveryStep calls (Undisturbed calls) steps) :
    OutcomeInv calls (System.run calls steps) := by
  induction steps using List.reverseRecOn with
  | nil => exact .new
  | append_singleton steps step ih =>
    have hrounds := (inv_run hshares (steps ++ [step]) hdistinct).rounds
    rw [run_concat] at hdistinct hrounds ⊢
    have hbefore := hdistinct.sublist (ballots_sublist _ _ _)
    obtain ⟨hevery, hundisturbed⟩ := hevery.concat
    obtain ⟨phase, replicas, events, hmove, heq⟩ :=
      (System.run calls steps).step_move calls step.1 step.2
    rw [heq] at hrounds ⊢
    exact (ih hbefore hevery).after hmove (inv_run hshares steps hbefore) hshares hundisturbed hrounds

/-- Outcomes are exact if no prepare meets the accepted proposal of a call that has not given up. -/
theorem exactOutcomes_of_undisturbed {calls : Nat → CasCall} {nodes : List Nat}
    (hshares : Shares calls nodes) (steps : List (Nat × Input))
    (hdistinct : (System.run calls steps).DistinctBallots)
    (hevery : EveryStep calls (Undisturbed calls) steps) :
    ExactOutcomes (System.run calls steps) :=
  (outcomeInv_run hshares steps hdistinct hevery).exactOutcomes
    (inv_run hshares steps hdistinct).rounds

/-- If the step is a prepare, then the replica holds no accepted proposal. -/
def noneAccepted (calls : Nat → CasCall) (s : System) (step : Nat × Input) : Bool :=
  match s.phases step.1 with
  | .preparing _ _ promises =>
    match (calls step.1).coordinator.replicas[promises.length]? with
    | some r => ((s.replicas r).state (calls step.1).partitionKey).accepted.isNone
    | none => true
  | _ => true

theorem undisturbed_of_noneAccepted {s : System} (h : noneAccepted calls s step = true) :
    Undisturbed calls s step := by
  intro attempts ballot promises r proposal hphase hr haccepted
  simp [noneAccepted, hphase, hr, haccepted] at h

theorem everyStep_of_noneAccepted
    (h : ∀ n : Fin steps.length, noneAccepted calls (System.run calls (steps.take n)) (steps.get n)) :
    EveryStep calls (Undisturbed calls) steps :=
  .of_forall fun n => undisturbed_of_noneAccepted (h n)

/-- One insert after the other: the second one finds the row. -/
def insertTwice : List (Nat × Input) :=
  List.replicate 14 (0, ⟨1, none⟩) ++ List.replicate 6 (1, ⟨2, some [1]⟩)

theorem exactOutcomes_of_undisturbed_insertTwice :
    let s := System.run twoInserts insertTwice
    (0, .returned .success) ∈ s.trace ∧ (1, .returned (.conditionNotMet [1])) ∈ s.trace ∧
      ExactOutcomes s := by
  refine ⟨by decide, by decide, ?_⟩
  refine exactOutcomes_of_undisturbed shares_twoInserts insertTwice ?_ ?_
  · unfold System.DistinctBallots
    decide
  · exact everyStep_of_noneAccepted (by decide)

/-- One replica has accepted the first call's mutation when the second call takes it over and
commits it; the other replicas refuse the first call, which then finds its own row. -/
def takeOver : List (Nat × Input) :=
  List.replicate 7 (0, ⟨1, none⟩) ++ List.replicate 13 (1, ⟨2, none⟩) ++
    List.replicate 9 (0, ⟨3, some [1]⟩)

theorem not_exactOutcomes_takeOver :
    let s := System.run twoInserts takeOver
    Shares twoInserts [0, 1, 2] ∧ s.DistinctBallots ∧
      (0, .returned (.conditionNotMet [1])) ∈ s.trace ∧ ¬ExactOutcomes s := by
  intro s
  have hreturned : (0, .returned (.conditionNotMet [1])) ∈ s.trace := by decide
  have hown : (0, .proposed ⟨⟨1, 1⟩, [1]⟩ none) ∈ s.trace := by decide
  have htaken : (1, .proposed ⟨⟨2, 2⟩, [1]⟩ (some ⟨1, 1⟩)) ∈ s.trace := by decide
  have happlied : (1, .applied 0 ⟨⟨2, 2⟩, [1]⟩) ∈ s.trace := by decide
  refine ⟨shares_twoInserts, ?_, hreturned, fun h => ?_⟩
  · unfold System.DistinctBallots
    decide
  · exact (h 0).2 [1] hreturned ⟨⟨2, 2⟩, .takenOver htaken (.own hown), 1, 0, _, happlied, rfl⟩

end CassandraVerified.Paxos
