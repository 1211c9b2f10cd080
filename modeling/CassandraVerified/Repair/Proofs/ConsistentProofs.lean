import CassandraVerified.Repair.Consistent

/-!
# Consistent repair commits atomically

In an orderly run the responses that the coordinator counts are answers of participants, and the
failed state is never left.
-/

namespace CassandraVerified.Repair

open List CoordinatorSession

variable {E : Type}

namespace CoordinatorSession

variable {session s : CoordinatorSession E} {calls : List (CoordinatorCall E)}
  {call : CoordinatorCall E}

/-- What the coordinator's session says about the calls so far. -/
structure Reached (session : CoordinatorSession E) (calls : List (CoordinatorCall E))
    (s : CoordinatorSession E) : Prop where
  participants : s.participants = session.participants
  prepared : ∀ e ∈ s.prepareResponses, e ∈ session.participants ∧
    ∃ resp, .handlePrepareResponse resp ∈ calls ∧ resp.endpoint = e ∧ resp.success = true
  promised : ∀ e ∈ s.promiseResponses, e ∈ session.participants ∧
    ∃ resp, .handlePromise resp ∈ calls ∧ resp.endpoint = e ∧ resp.success = true
  complete : s.state ≠ .preparing → s.state ≠ .failed →
    ∀ e ∈ session.participants, e ∈ s.prepareResponses

section

variable (h : Reached session calls s)

include h

theorem Reached.mono (call : CoordinatorCall E) : Reached session (calls ++ [call]) s where
  participants := h.participants
  prepared := fun e he => by
    obtain ⟨hin, resp, hresp, hrest⟩ := h.prepared e he
    exact ⟨hin, resp, mem_append_left _ hresp, hrest⟩
  promised := fun e he => by
    obtain ⟨hin, resp, hresp, hrest⟩ := h.promised e he
    exact ⟨hin, resp, mem_append_left _ hresp, hrest⟩
  complete := h.complete

theorem Reached.fail : Reached session calls { s with state := .failed } :=
  { h with complete := fun _ hfailed => absurd rfl hfailed }

theorem Reached.proceed (hstate : s.state ≠ .preparing ∧ s.state ≠ .failed)
    (state : ConsistentSessionState) :
    Reached session calls { s with state } :=
  { h with complete := fun _ _ => h.complete hstate.1 hstate.2 }

end

variable [DecidableEq E] [ToString E]

theorem run_concat (session : CoordinatorSession E) (calls : List (CoordinatorCall E))
    (call : CoordinatorCall E) :
    session.run (calls ++ [call]) = ((session.run calls).step call).1 := by
  simp [run]

variable {participants : List E} {ranges : List (Cluster.Token × Cluster.Token)}
  {tables : List String}

omit [ToString E] in
theorem mem_of_card_eq_length {responses : Finset E} (hsub : ∀ e ∈ responses, e ∈ participants)
    (hcard : responses.card = participants.length) :
    ∀ e ∈ participants, e ∈ responses := by
  have heq : responses = participants.toFinset := by
    refine Finset.eq_of_subset_of_card_le (fun e he => mem_toFinset.2 (hsub e he)) ?_
    rw [hcard]
    exact toFinset_card_le _
  intro e he
  rw [heq]
  exact mem_toFinset.2 he

omit [ToString E] in
theorem Reached.insertPrepare (h : Reached session calls s) {resp : PrepareConsistentResponse E}
    (hcall : .handlePrepareResponse resp ∈ calls) (hsuccess : resp.success = true)
    (hin : resp.endpoint ∈ session.participants) :
    Reached session calls
      { s with prepareResponses := insert resp.endpoint s.prepareResponses } where
  participants := h.participants
  prepared := fun e he => by
    rcases Finset.mem_insert.1 he with rfl | he
    · exact ⟨hin, resp, hcall, rfl, hsuccess⟩
    · exact h.prepared e he
  promised := h.promised
  complete := fun hpreparing hfailed e he =>
    Finset.mem_insert_of_mem (h.complete hpreparing hfailed e he)

section

variable (h : Reached session calls s)

include h

omit [ToString E] in
theorem Reached.insertPromise {resp : FinalizePromise E} (hcall : .handlePromise resp ∈ calls)
    (hsuccess : resp.success = true) (hin : resp.endpoint ∈ session.participants) :
    Reached session calls
      { s with promiseResponses := insert resp.endpoint s.promiseResponses } where
  participants := h.participants
  prepared := h.prepared
  promised := fun e he => by
    rcases Finset.mem_insert.1 he with rfl | he
    · exact ⟨hin, resp, hcall, rfl, hsuccess⟩
    · exact h.promised e he
  complete := h.complete

theorem Reached.step (hexpects : s.Expects call) :
    Reached session (calls ++ [call]) (s.step call).1 := by
  have hmono := h.mono call
  have hlast : call ∈ calls ++ [call] := mem_append_right _ (mem_singleton_self call)
  cases call with
  | handlePrepareResponse resp =>
    simp only [step, handlePrepareResponse]
    split_ifs with hstate hfails hfull
    · exact hmono
    · exact hmono.fail
    · have hsuccess := Bool.eq_true_of_not_eq_false hfails
      have hin : resp.endpoint ∈ session.participants :=
        h.participants ▸ hexpects (not_not.1 hstate) hsuccess
      have hinsert := hmono.insertPrepare hlast hsuccess hin
      refine { hinsert with complete := fun _ _ => ?_ }
      refine mem_of_card_eq_length (fun e he => (hinsert.prepared e he).1) ?_
      rw [← h.participants]
      exact hfull
    · have hsuccess := Bool.eq_true_of_not_eq_false hfails
      exact hmono.insertPrepare hlast hsuccess
        (h.participants ▸ hexpects (not_not.1 hstate) hsuccess)
  | repairComplete =>
    simp only [step, repairComplete]
    split_ifs <;> exact hmono.proceed hexpects _
  | handlePromise resp =>
    simp only [step, handlePromise]
    split_ifs with hstate hfails hfull
    · exact hmono
    · exact hmono.fail
    all_goals
      have hproposing := not_not.1 hstate
      have hsuccess := Bool.eq_true_of_not_eq_false hfails
      have hinsert := hmono.insertPromise hlast hsuccess
        (h.participants ▸ hexpects hproposing hsuccess)
    · exact hinsert.proceed (by simp [hproposing]) _
    · exact hinsert
  | commit => exact hmono.proceed hexpects _
  | fail => exact hmono.fail

/-- Commit is returned when the last participant promises. -/
theorem Reached.answered (hexpects : s.Expects call)
    (hcommit : (s.step call).2 = some .commit) :
    s.state ≠ .failed ∧ ∀ e ∈ session.participants, Answered (calls ++ [call]) e := by
  have hnext := h.step hexpects
  cases call with
  | handlePrepareResponse resp =>
    simp only [CoordinatorSession.step, handlePrepareResponse] at hcommit
    split_ifs at hcommit <;> cases hcommit
  | handlePromise resp =>
    simp only [CoordinatorSession.step, handlePromise] at hcommit hnext
    split_ifs at hcommit hnext with hstate hfails hfull <;> try cases hcommit
    refine ⟨by simp [not_not.1 hstate], fun e he => ⟨?_, ?_⟩⟩
    · exact (hnext.prepared e (hnext.complete (by simp) (by simp) e he)).2
    · have hall := mem_of_card_eq_length (fun e he => (hnext.promised e he).1)
        (hfull.trans (congrArg List.length h.participants))
      exact (hnext.promised e (hall e he)).2
  | repairComplete => cases hcommit
  | commit => cases hcommit
  | fail => cases hcommit

end

theorem state_step_of_failed (hexpects : s.Expects call) (hfailed : s.state = .failed) :
    (s.step call).1.state = .failed := by
  cases call with
  | handlePrepareResponse resp => simp [step, handlePrepareResponse, hfailed]
  | handlePromise resp => simp [step, handlePromise, hfailed]
  | repairComplete => exact absurd hfailed hexpects.2
  | commit => exact absurd hfailed hexpects.2
  | fail => rfl

theorem Orderly.front {before after : List (CoordinatorCall E)}
    (h : session.Orderly (before ++ after)) : session.Orderly before := by
  intro front call back heq
  refine h front call (back ++ after) ?_
  rw [heq, append_assoc, cons_append]

theorem Orderly.nil (session : CoordinatorSession E) : session.Orderly [] :=
  fun before call after heq => absurd heq.symm (by simp)

theorem Orderly.cons (hcall : session.Expects call) (hcalls : (session.step call).1.Orderly calls) :
    session.Orderly (call :: calls) := by
  intro before call' after heq
  cases before with
  | nil =>
    rw [nil_append, List.cons.injEq] at heq
    exact heq.1 ▸ hcall
  | cons first before =>
    rw [cons_append, List.cons.injEq] at heq
    rw [← heq.1]
    exact hcalls before call' after heq.2

theorem Orderly.concat (h : session.Orderly (calls ++ [call])) :
    session.Orderly calls ∧ (session.run calls).Expects call :=
  ⟨h.front, h calls call [] rfl⟩

theorem Orderly.reached {parentId : Uuid} {keyspace : String}
    (h : (new parentId participants keyspace tables ranges).Orderly calls) :
    Reached (new parentId participants keyspace tables ranges) calls
      ((new parentId participants keyspace tables ranges).run calls) := by
  induction calls using List.reverseRecOn with
  | nil =>
    refine ⟨rfl, ?_, ?_, fun hpreparing => absurd rfl hpreparing⟩
    · exact fun e he => absurd he (Finset.notMem_empty e)
    · exact fun e he => absurd he (Finset.notMem_empty e)
  | append_singleton calls call ih =>
    obtain ⟨hcalls, hcall⟩ := h.concat
    rw [run_concat]
    exact (ih hcalls).step hcall

theorem Orderly.failed_of_earlier (h : session.Orderly calls) {earlier : List (CoordinatorCall E)}
    (hearlier : earlier <+: calls) (hfailed : (session.run earlier).state = .failed) :
    (session.run calls).state = .failed := by
  induction calls using List.reverseRecOn with
  | nil => exact prefix_nil.1 hearlier ▸ hfailed
  | append_singleton calls call ih =>
    obtain ⟨hcalls, hcall⟩ := h.concat
    rcases prefix_concat_iff.1 hearlier with rfl | hearlier
    · exact hfailed
    · rw [run_concat]
      exact state_step_of_failed hcall (ih hcalls hearlier)

theorem Orderly.commitsAtomically {parentId : Uuid} {keyspace : String}
    (h : (new parentId participants keyspace tables ranges).Orderly calls) :
    (new parentId participants keyspace tables ranges).CommitsAtomically calls := by
  rintro before call after rfl hcommit
  have hbefore := h.front
  obtain ⟨hstate, hanswered⟩ := hbefore.reached.answered (h before call after rfl) hcommit
  exact ⟨hanswered, fun earlier hearlier hfailed =>
    hstate (hbefore.failed_of_earlier hearlier hfailed)⟩

end CoordinatorSession

namespace LocalSession

variable {session s : LocalSession E} {calls : List (LocalCall E)} {call : LocalCall E}

theorem run_append (session : LocalSession E) (calls calls' : List (LocalCall E)) :
    session.run (calls ++ calls') = (session.run calls).run calls' :=
  foldl_append

theorem state_step_of_failed (call : LocalCall E) (hfailed : s.state = .failed) :
    (s.step call).state = .failed := by
  cases call <;>
    simp [LocalSession.step, handleFinalizePropose, handleCommit, handleFail, setRepairing, hfailed]

theorem state_step_of_committed (hcall : ∀ now, call ≠ .handleFail now)
    (hcommitted : s.state = .committed) : (s.step call).state = .committed := by
  cases call with
  | handleFail now => exact absurd rfl (hcall now)
  | handleFinalizePropose thisEndpoint now =>
    simp [LocalSession.step, handleFinalizePropose, hcommitted]
  | handleCommit now => simp [LocalSession.step, handleCommit, hcommitted]
  | setRepairing now => simp [LocalSession.step, setRepairing, hcommitted]

theorem state_run_of_failed (hfailed : s.state = .failed) : (s.run calls).state = .failed := by
  induction calls generalizing s with
  | nil => exact hfailed
  | cons call calls ih => exact ih (state_step_of_failed call hfailed)

theorem Orderly.tail (h : s.Orderly (call :: calls)) : (s.step call).Orderly calls :=
  fun before now after heq => h (call :: before) now after (congrArg (call :: ·) heq)

theorem Orderly.state_run_of_committed (h : s.Orderly calls) (hcommitted : s.state = .committed) :
    (s.run calls).state = .committed := by
  induction calls generalizing s with
  | nil => exact hcommitted
  | cons call calls ih =>
    refine ih h.tail (state_step_of_committed (fun now hfail => ?_) hcommitted)
    exact h [] now calls (congrArg (· :: calls) hfail) hcommitted

theorem Orderly.drop {before between after : List (LocalCall E)}
    (h : session.Orderly (before ++ between ++ after)) : (session.run before).Orderly between := by
  intro front now back heq
  rw [← run_append]
  refine h (before ++ front) now (back ++ after) ?_
  rw [heq]
  simp

theorem Orderly.staysDecided (h : session.Orderly calls) : session.StaysDecided calls := by
  rintro before between ⟨after, rfl⟩
  rw [run_append]
  constructor
  · rintro ⟨hcommitted, hfailed⟩
    rw [h.drop.state_run_of_committed hcommitted] at hfailed
    cases hfailed
  · rintro ⟨hfailed, hcommitted⟩
    rw [state_run_of_failed hfailed] at hcommitted
    cases hcommitted

end LocalSession

variable [DecidableEq E] [ToString E]

/-- In orderly runs, commit is returned only if every participant has answered both phases, never
after a failure, and decisions do not change. -/
theorem commitsAtomically_of_orderly (parentId : Uuid) (participants : List E) (keyspace : String)
    (tables : List String) (ranges : List (Cluster.Token × Cluster.Token))
    (calls : List (CoordinatorCall E)) (session : LocalSession E)
    (localCalls : List (LocalCall E))
    (hcalls : (new parentId participants keyspace tables ranges).Orderly calls)
    (hlocal : session.Orderly localCalls) :
    (new parentId participants keyspace tables ranges).CommitsAtomically calls ∧
      session.StaysDecided localCalls :=
  ⟨hcalls.commitsAtomically, hlocal.staysDecided⟩

def twoParticipants : CoordinatorSession ℕ := .new 0 [1, 2] "ks" ["t1"] [(0, 100)]

def firstParticipant : LocalSession ℕ :=
  (LocalSession.handlePrepare ⟨0, "ks", ["t1"], [(0, 100)], [1, 2], false⟩ 0 1 1000).1

theorem commitsAtomically_bothAnswer :
    twoParticipants.CommitsAtomically [.handlePrepareResponse ⟨0, 1, true⟩,
        .handlePrepareResponse ⟨0, 2, true⟩, .repairComplete, .handlePromise ⟨0, 1, true⟩,
        .handlePromise ⟨0, 2, true⟩, .commit] ∧
      firstParticipant.StaysDecided [.setRepairing 1001, .handleFinalizePropose 1 1002,
        .handleCommit 1003] := by
  refine commitsAtomically_of_orderly 0 [1, 2] "ks" ["t1"] [(0, 100)] _ _ _ ?_ ?_
  · refine .cons (fun _ _ => by decide) (.cons (fun _ _ => by decide) ?_)
    refine .cons ⟨by decide, by decide⟩ (.cons (fun _ _ => by decide) ?_)
    refine .cons (fun _ _ => by decide) (.cons ⟨by decide, by decide⟩ ?_)
    exact CoordinatorSession.Orderly.nil _
  · intro before now after heq
    have hmem : LocalCall.handleFail now ∈ [.setRepairing 1001, .handleFinalizePropose 1 1002,
        .handleCommit 1003] := heq ▸ mem_append_right _ mem_cons_self
    simp at hmem

/-- Commit is returned though a participant failed to prepare; and a participant that has committed
fails. -/
theorem not_commitsAtomically_failedPrepare :
    ¬ twoParticipants.CommitsAtomically [.handlePrepareResponse ⟨0, 1, false⟩, .repairComplete,
        .handlePromise ⟨0, 1, true⟩, .handlePromise ⟨0, 2, true⟩] ∧
      ¬ firstParticipant.StaysDecided [.handleFinalizePropose 1 1001, .handleCommit 1002,
        .handleFail 1003] := by
  constructor
  · intro h
    have hfailed := (h [.handlePrepareResponse ⟨0, 1, false⟩, .repairComplete,
      .handlePromise ⟨0, 1, true⟩] (.handlePromise ⟨0, 2, true⟩) [] rfl (by decide)).2
      [.handlePrepareResponse ⟨0, 1, false⟩] (by simp)
    exact hfailed (by decide)
  · intro h
    have hdecided := (h [.handleFinalizePropose 1 1001, .handleCommit 1002] [.handleFail 1003]
      (prefix_refl _)).1
    exact hdecided (by decide)

end CassandraVerified.Repair
