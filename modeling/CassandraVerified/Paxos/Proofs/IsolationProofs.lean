import CassandraVerified.Paxos.Outcome
import CassandraVerified.Paxos.Proofs.AgreementProofs

/-!
# Isolation

A step of a call reads and changes the states of its own partition key only. If every key belongs to
one table, a run agrees with the run without the calls for other tables.
-/

namespace CassandraVerified.Paxos

open List
open Storage (Bytes)
open PaxosReplica Paxos.System CasCall

variable {phase : CasPhase} {events : List Event} {i : Nat}

variable {R R' : Nat → PaxosReplica} {k : Bytes} {trace : List (Nat × Event)}

/-- What replicas hold for a partition. -/
def SameStates (k : Bytes) (R R' : Nat → PaxosReplica) : Prop := ∀ r, (R r).state k = (R' r).state k

theorem Move.frame {call : CasCall} {input : Input} {before : CasPhase}
    (h : Move call input R before phase R' events)
    (hk : k ≠ call.partitionKey) :
    SameStates k R' R := fun r =>
  ((h.state_cases r k).resolve_right fun hown => hk hown.1).1

theorem sameStates_update (h : SameStates k R R') (r : Nat) {s s' : PaxosState} (hs : s = s') :
    SameStates k (Function.update R r ((R r).setState k s))
      (Function.update R' r ((R' r).setState k s')) := by
  intro r'
  rw [state_update, state_update, hs, h r']

/-- A step depends on the states of the call's partition only. -/
theorem executeCas_congr (call : CasCall) (input : Input) (h : SameStates call.partitionKey R R')
    (phase : CasPhase) :
    (call.executeCas input R phase).1 = (call.executeCas input R' phase).1 ∧
      SameStates call.partitionKey (call.executeCas input R phase).2.1
        (call.executeCas input R' phase).2.1 ∧
      (call.executeCas input R phase).2.2 = (call.executeCas input R' phase).2.2 := by
  cases phase with
  | preparing attempts ballot promises =>
    cases hr : call.coordinator.replicas[promises.length]? with
    | some r =>
      simp only [executeCas, hr, handlePrepare, prepareMsg, h r]
      refine ⟨?_, sameStates_update h r rfl, ?_⟩ <;> trivial
    | none =>
      simp only [executeCas, hr]
      exact ⟨trivial, h, trivial⟩
  | proposing attempts proposal adopted accepts =>
    cases hr : call.coordinator.replicas[accepts.length]? with
    | some r =>
      simp only [executeCas, hr, handlePropose, proposeMsg, h r]
      refine ⟨?_, sameStates_update h r rfl, ?_⟩ <;> trivial
    | none =>
      simp only [executeCas, hr]
      split <;> exact ⟨rfl, h, rfl⟩
  | committing attempts proposal adopted sent =>
    cases hr : call.coordinator.replicas[sent]? with
    | some r =>
      simp only [executeCas, hr, handleCommit, commitMsg, h r]
      refine ⟨?_, sameStates_update h r rfl, ?_⟩ <;> trivial
    | none =>
      simp only [executeCas, hr]
      split <;> exact ⟨rfl, h, rfl⟩
  | idle attempts =>
    simp only [executeCas]
    split <;> exact ⟨rfl, h, rfl⟩
  | reading attempts ballot => exact ⟨rfl, h, rfl⟩
  | returned result => exact ⟨rfl, h, rfl⟩

theorem received_append (trace l : List (Nat × Event)) (i : Nat) :
    received (trace ++ l) i = received trace i ++ received l i :=
  filterMap_append ..

theorem received_of_ne {j : Nat} (h : j ≠ i) : received (events.map (Prod.mk j)) i = [] := by
  rw [received, filterMap_eq_nil_iff]
  intro e he
  obtain ⟨event, -, rfl⟩ := mem_map.1 he
  cases event <;> simp [h]

/-- Two systems look the same to the calls for the table of call `i`, on the keys in `K`. -/
structure SameTo (calls : Nat → CasCall) (i : Nat) (K : Bytes → Prop) (s s' : System) : Prop where
  phases : ∀ j, (calls j).SameTable (calls i) → s.phases j = s'.phases j
  received : ∀ j, (calls j).SameTable (calls i) → received s.trace j = received s'.trace j
  states : ∀ k, K k → SameStates k s.replicas s'.replicas

namespace SameTo

variable {calls : Nat → CasCall} {K : Bytes → Prop} {s s' : System}

/-- A call for the table does the same in both. -/
theorem step (h : SameTo calls i K s s') {step : Nat × Input}
    (htable : (calls step.1).SameTable (calls i)) (hkey : K (calls step.1).partitionKey) :
    SameTo calls i K (s.step calls step) (s'.step calls step) := by
  obtain ⟨hphase, hstates, hevents⟩ :=
    executeCas_congr (calls step.1) step.2 (h.states _ hkey) (s.phases step.1)
  have hsame := h.phases step.1 htable
  have hmove := (calls step.1).executeCas_move step.2 s.replicas (s.phases step.1)
  have hmove' := (calls step.1).executeCas_move step.2 s'.replicas (s'.phases step.1)
  rw [hsame] at hphase hstates hevents hmove
  refine ⟨fun j hj => ?_, fun j hj => ?_, fun k hk => ?_⟩
  · simp only [System.step, hsame, hphase]
    by_cases hji : j = step.1
    · subst hji
      simp
    · simp [hji, h.phases j hj]
  · simp only [System.step, hsame, hevents, received_append, h.received j hj]
  · simp only [System.step, hsame]
    by_cases hkk : k = (calls step.1).partitionKey
    · rw [hkk]
      exact hstates
    · intro r
      rw [hmove.frame hkk r, hmove'.frame hkk r]
      exact h.states k hk r

theorem skip (h : SameTo calls i K s s') {step : Nat × Input}
    (htable : ¬(calls step.1).SameTable (calls i)) (hkey : ¬K (calls step.1).partitionKey) :
    SameTo calls i K (s.step calls step) s' := by
  have hmove := (calls step.1).executeCas_move step.2 s.replicas (s.phases step.1)
  have hne : ∀ j, (calls j).SameTable (calls i) → j ≠ step.1 := by
    rintro j hj rfl
    exact htable hj
  refine ⟨fun j hj => ?_, fun j hj => ?_, fun k hk => ?_⟩
  · simp only [System.step, Function.update_of_ne (hne j hj), h.phases j hj]
  · simp only [System.step]
    rw [received_append, received_of_ne (hne j hj).symm, append_nil, h.received j hj]
  · intro r
    have hkk : k ≠ (calls step.1).partitionKey := by
      rintro rfl
      exact hkey hk
    exact (hmove.frame hkk r).trans (h.states k hk r)

theorem run {steps : List (Nat × Input)}
    (hkeys : ∀ step ∈ steps, (calls step.1).SameTable (calls i) ↔ K (calls step.1).partitionKey) :
    SameTo calls i K (run calls steps)
      (run calls (steps.filter fun step => (calls step.1).SameTable (calls i))) := by
  induction steps using List.reverseRecOn with
  | nil => exact ⟨fun _ _ => rfl, fun _ _ => rfl, fun _ _ _ => rfl⟩
  | append_singleton steps step ih =>
    have hstep := hkeys step (by simp)
    have ih := ih fun step' hmem => hkeys step' (mem_append_left _ hmem)
    rw [filter_append, run_concat]
    by_cases htable : (calls step.1).SameTable (calls i)
    · rw [filter_singleton, decide_eq_true htable, cond_true, run_concat]
      exact ih.step htable (hstep.1 htable)
    · rw [filter_singleton, decide_eq_false htable, cond_false, append_nil]
      exact ih.skip htable fun hk => htable (hstep.2 hk)

end SameTo

/-- An accepted proposal was accepted before or is accepted now. -/
theorem Move.accepted_cases {call : CasCall} {input : Input} {before : CasPhase}
    (h : Move call input R before phase R' events) {r : Nat} {q : Proposal}
    (hq : ((R' r).state k).accepted = some q) :
    ((R r).state k).accepted = some q ∨
      k = call.partitionKey ∧
        ∃ attempts adopted accepts, before = .proposing attempts q adopted accepts := by
  obtain ⟨hstate, -⟩ | ⟨hk, ⟨b, hstate, -⟩ | ⟨attempts, q', adopted, accepts, hbefore, -, -, hstate⟩ |
    ⟨q', hstate, -⟩⟩ := h.state_cases r k <;> rw [hstate] at hq
  · exact .inl hq
  · exact .inl hq
  · obtain rfl := Option.some.inj hq
    exact .inr ⟨hk, attempts, adopted, accepts, hbefore⟩
  · exact .inl (PaxosState.accepted_of_commit hq)

/-- What a call has in hand comes from calls with the same target. -/
def SourceOf (calls : Nat → CasCall) (trace : List (Nat × Event)) (i : Nat) : CasPhase → Prop
  | .preparing _ _ promises => ∀ promise ∈ promises, ∀ q, promise.inProgress = some q →
    FromSameTarget calls trace i q
  | .proposing _ p _ _ | .committing _ p _ _ => FromSameTarget calls trace i p
  | _ => True

theorem Carries.mono {b : Ballot} (h : Carries trace i b) (l : List (Nat × Event)) :
    Carries (trace ++ l) i b := by
  induction h with
  | own hmem => exact .own (mem_append_left _ hmem)
  | takenOver hmem _ ih => exact .takenOver (mem_append_left _ hmem) ih

variable {calls : Nat → CasCall}

theorem FromSameTarget.mono {p : Proposal} (h : FromSameTarget calls trace i p)
    (l : List (Nat × Event)) :
    FromSameTarget calls (trace ++ l) i p := by
  obtain ⟨j, htarget, hcarries, hmutation⟩ := h
  exact ⟨j, htarget, hcarries.mono l, hmutation⟩

theorem SourceOf.mono (h : SourceOf calls trace i phase)
    (l : List (Nat × Event)) :
    SourceOf calls (trace ++ l) i phase := by
  cases phase with
  | preparing attempts ballot promises =>
    exact fun promise hpromise q hq => (h promise hpromise q hq).mono l
  | proposing attempts p adopted accepts => exact FromSameTarget.mono h l
  | committing attempts p adopted sent => exact FromSameTarget.mono h l
  | _ => trivial

/-- Whatever is proposed, held or applied comes from a call with the same target. -/
structure SourceInv (calls : Nat → CasCall) (C : Nat → Prop) (s : System) : Prop where
  phase : ∀ i, SourceOf calls s.trace i (s.phases i)
  replica : ∀ {r k q}, ((s.replicas r).state k).accepted = some q →
    ∃ i, C i ∧ (calls i).partitionKey = k ∧ FromSameTarget calls s.trace i q
  proposed : ∀ {i p adopted}, (i, .proposed p adopted) ∈ s.trace → FromSameTarget calls s.trace i p
  applied : ∀ {i r p}, (i, .applied r p) ∈ s.trace → FromSameTarget calls s.trace i p

namespace SourceInv

variable {C : Nat → Prop} {s : System}
  {replicas : Nat → PaxosReplica} {input : Input}

theorem new : SourceInv calls C .new where
  phase _ := trivial
  replica h := by simp [System.new, PaxosState.new] at h
  proposed h := nomatch h
  applied h := nomatch h

section

variable (hkeys : ∀ i j, C i → C j → (calls i).partitionKey = (calls j).partitionKey →
  (calls i).SameTable (calls j))

include hkeys

theorem phase_after (h : SourceInv calls C s) (hi : C i)
    (hmove : Move (calls i) input s.replicas (s.phases i) phase replicas events) :
    SourceOf calls (s.after i phase replicas events).trace i phase := by
  have hphase := (h.phase i).mono (events.map (Prod.mk i))
  generalize s.phases i = before at hmove hphase
  cases hmove with
  | start _ => exact fun promise hpromise => nomatch hpromise
  | @prepare _ ballot promises r _ =>
    intro promise hpromise q hq
    rcases mem_append.1 hpromise with hold | hnew
    · exact hphase promise hold q hq
    · rw [mem_singleton.1 hnew, ((s.replicas r).handlePrepare_spec _).1] at hq
      -- the replica's proposal is from a call with the same key, so for the same table
      obtain ⟨j, hj, hkey, l, htarget, hcarries⟩ := h.replica hq
      have htable := hkeys j i hj hi hkey
      refine FromSameTarget.mono ⟨l, ⟨⟨?_, ?_⟩, htarget.2.trans hkey⟩, hcarries⟩ _
      · exact htarget.1.1.trans htable.1
      · exact htarget.1.2.trans htable.2
  | @adopt _ ballot _ adopted _ _ hadopt =>
    obtain ⟨promise, hpromise, hin⟩ := mem_filterMap.1 (mem_maxByBallot hadopt).1
    obtain ⟨j, htarget, hcarries, hmutation⟩ := hphase promise hpromise _ hin
    have hmem : (i, .proposed ⟨ballot, adopted.mutation⟩ (some adopted.ballot)) ∈
        s.trace ++ [Event.collected ballot,
          .proposed ⟨ballot, adopted.mutation⟩ (some adopted.ballot)].map (Prod.mk i) := by
      simp
    exact ⟨j, htarget, .takenOver hmem hcarries, hmutation⟩
  | @met _ ballot _ =>
    have hmem : (i, .proposed ⟨ballot, (calls i).mutation⟩ none) ∈
        s.trace ++ [Event.proposed ⟨ballot, (calls i).mutation⟩ none].map (Prod.mk i) := by
      simp
    exact ⟨i, ⟨⟨rfl, rfl⟩, rfl⟩, .own hmem, rfl⟩
  | propose _ => exact hphase
  | chosen _ _ => exact hphase
  | commit _ => exact hphase
  | _ => trivial

theorem after (h : SourceInv calls C s) (hi : C i)
    (hmove : Move (calls i) input s.replicas (s.phases i) phase replicas events) :
    SourceInv calls C (s.after i phase replicas events) := by
  have hphase := h.phase_after hkeys hi hmove
  refine ⟨fun j => ?_, ?_, ?_, ?_⟩
  · by_cases hj : j = i
    · subst hj
      rw [after_phases_self]
      exact hphase
    · rw [after_phases_of_ne hj]
      exact (h.phase j).mono _
  · intro r k q hq
    rcases hmove.accepted_cases hq with hold | ⟨rfl, attempts, adopted, accepts, hbefore⟩
    · obtain ⟨j, hj, hk, hfrom⟩ := h.replica hold
      exact ⟨j, hj, hk, hfrom.mono _⟩
    · have hsource := h.phase i
      rw [hbefore] at hsource
      exact ⟨i, hi, rfl, FromSameTarget.mono hsource _⟩
  · intro j p adopted hmem
    rcases (mem_trace_after ..).1 hmem with hold | ⟨rfl, hnew⟩
    · exact (h.proposed hold).mono _
    · generalize s.phases j = before at hmove
      cases hmove with
      | adopt _ _ _ =>
        simp only [mem_cons, reduceCtorEq, Event.proposed.injEq, false_or, not_mem_nil,
          or_false] at hnew
        obtain ⟨rfl, -⟩ := hnew
        exact hphase
      | met _ =>
        simp only [mem_singleton, Event.proposed.injEq] at hnew
        obtain ⟨rfl, -⟩ := hnew
        exact hphase
      | propose _ => split at hnew <;> simp at hnew
      | _ => simp at hnew
  · intro j r p hmem
    rcases (mem_trace_after ..).1 hmem with hold | ⟨rfl, hnew⟩
    · exact (h.applied hold).mono _
    · generalize s.phases j = before at hmove
      cases hmove with
      | commit _ =>
        simp only [mem_singleton, Event.applied.injEq] at hnew
        obtain ⟨-, rfl⟩ := hnew
        exact hphase
      | propose _ => split at hnew <;> simp at hnew
      | _ => simp at hnew

theorem run {steps : List (Nat × Input)} (hcalls : ∀ step ∈ steps, C step.1) :
    SourceInv calls C (run calls steps) := by
  induction steps using List.reverseRecOn with
  | nil => exact .new
  | append_singleton steps step ih =>
    have ih := ih fun step' hmem => hcalls step' (mem_append_left _ hmem)
    obtain ⟨phase, replicas, events, hmove, heq⟩ :=
      (System.run calls steps).step_move calls step.1 step.2
    rw [run_concat, heq]
    exact ih.after hkeys (hcalls step (by simp)) hmove

end

end SourceInv

/-- Calls are isolated in every run in which no partition key is used for two tables. -/
theorem isolated_of_keysOfOneTable {calls : Nat → CasCall} {steps : List (Nat × Input)}
    (h : KeysOfOneTable calls steps) : Isolated calls steps := by
  have hsource : SourceInv calls (fun i => ∃ step ∈ steps, step.1 = i) (run calls steps) := by
    refine SourceInv.run ?_ fun step hstep => ⟨step, hstep, rfl⟩
    rintro _ _ ⟨step, hstep, rfl⟩ ⟨step', hstep', rfl⟩ hkey
    exact h step hstep step' hstep' hkey
  refine ⟨fun i p adopted hp => hsource.proposed hp, fun i r p hp => hsource.applied hp, fun i => ?_⟩
  have hkeys : ∀ step ∈ steps, (calls step.1).SameTable (calls i) ↔
      ∃ step' ∈ steps, (calls step'.1).SameTable (calls i) ∧
        (calls step'.1).partitionKey = (calls step.1).partitionKey := by
    intro step hstep
    refine ⟨fun htable => ⟨step, hstep, htable, rfl⟩, ?_⟩
    rintro ⟨step', hstep', htable, hkey⟩
    have hone := h step hstep step' hstep' hkey.symm
    exact ⟨hone.1.trans htable.1, hone.2.trans htable.2⟩
  have hsame : SameTo calls i (fun k => ∃ step' ∈ steps, (calls step'.1).SameTable (calls i) ∧
        (calls step'.1).partitionKey = k) _ _ := SameTo.run hkeys
  exact hsame.received i ⟨rfl, rfl⟩

/-- The second call inserts into another table, with another key. -/
def twoKeys (i : Nat) : CasCall :=
  if i = 0 then insertCall 1 [1] else { insertCall 2 [2] with table := "u", partitionKey := [1] }

theorem isolated_of_keysOfOneTable_twoKeys :
    Isolated twoKeys (List.replicate 9 (0, ⟨1, none⟩) ++ List.replicate 5 (1, ⟨2, none⟩)) := by
  refine isolated_of_keysOfOneTable fun step hstep step' hstep' hkey => ?_
  unfold twoKeys at hkey ⊢
  split_ifs at hkey ⊢ <;> first | exact ⟨rfl, rfl⟩ | simp [insertCall] at hkey

/-- The second call inserts into another table. -/
def twoTables (i : Nat) : CasCall :=
  if i = 0 then insertCall 1 [1] else { insertCall 2 [2] with table := "u" }

/-- Both calls use the same partition key, of two tables. -/
theorem not_isolated_twoTables :
    ¬Isolated twoTables (List.replicate 9 (0, ⟨1, none⟩) ++ List.replicate 5 (1, ⟨2, none⟩)) := by
  intro h
  obtain ⟨j, ⟨⟨-, htable⟩, -⟩, -, hmutation⟩ := h.proposed 1 ⟨⟨2, 2⟩, [1]⟩ (some ⟨1, 1⟩) (by decide)
  unfold twoTables at htable hmutation
  split at htable <;> simp_all [insertCall]

end CassandraVerified.Paxos
