import CassandraVerified.Paxos.Order
import CassandraVerified.Paxos.Proofs.AgreementProofs

/-!
# Proofs: the order of ballots

A call that a replica expects keeps the order, and any other one breaks it at once. A round looks
only at the proposals in progress, which may be older than a commit that is reported with them.
-/

namespace CassandraVerified.Paxos

open List
open Voting (Board)
open Storage (Bytes)
open Paxos.System

variable {call : PaxosCall}

namespace PaxosState

variable {s s' : PaxosState} {calls : List PaxosCall}

theorem run_concat (calls : List PaxosCall) (call : PaxosCall) :
    run (calls ++ [call]) = (run calls).apply call :=
  foldl_concat ..

/-- What is accepted after a call was accepted before, or is proposed with a ballot that is not
below the promise. -/
theorem accepted_apply {a : Proposal} (h : (s.apply call).accepted = some a) :
    s.accepted = some a ∨ call = .propose a ∧ s.promised ≤ a.ballot ∧
        s.apply call = { s with promised := a.ballot, accepted := some a } := by
  cases call with
  | prepare b =>
    rw [apply, (s.prepare_spec b).2.2.2] at h
    exact .inl h
  | propose p =>
    rcases le_or_gt s.promised p.ballot with hle | hlt
    · rw [apply, propose_of_le hle] at h ⊢
      obtain rfl := Option.some.inj h
      exact .inr ⟨rfl, hle, rfl⟩
    · rw [apply, propose_of_lt hlt] at h
      exact .inl h
  | commit p => exact .inl (accepted_of_commit h)

theorem promised_le_apply (s : PaxosState) (call : PaxosCall) :
    s.promised ≤ (s.apply call).promised := by
  cases call with
  | prepare b =>
    rw [apply, (s.prepare_spec b).2.2.2]
    exact le_max_left _ _
  | propose p =>
    rcases le_or_gt s.promised p.ballot with hle | hlt
    · rw [apply, propose_of_le hle]
      exact hle
    · rw [apply, propose_of_lt hlt]
  | commit p => exact le_rfl

theorem committed_apply (s : PaxosState) (call : PaxosCall) :
    (s.apply call).committed = s.committed ∨ ∃ p, call = .commit p := by
  cases call with
  | prepare b =>
    rw [apply, (s.prepare_spec b).2.2.2]
    exact .inl rfl
  | propose p =>
    rw [apply, propose]
    exact .inl (by split <;> rfl)
  | commit p => exact .inr ⟨p, rfl⟩

theorem Advances.apply (h : s.Advances s') (hordered : s.Ordered) (call : PaxosCall) :
    s.Advances (s'.apply call) where
  promised := h.promised.trans (s'.promised_le_apply call)
  accepted a ha a' ha' := by
    rcases accepted_apply ha' with hold | ⟨-, hle, -⟩
    · exact h.accepted a ha a' hold
    · exact (hordered.accepted_le a ha).trans (h.promised.trans hle)
  committed c hc := by
    obtain ⟨c', hc', hle⟩ := h.committed c hc
    rcases s'.committed_apply call with hsame | ⟨p, rfl⟩
    · exact ⟨c', hsame ▸ hc', hle⟩
    · obtain ⟨d, hd, -, hnewer⟩ := s'.exists_committed_commit p
      exact ⟨d, hd, hle.trans (hnewer c' hc')⟩

theorem Ordered.apply (h : s.Ordered) (hcall : s.Expects call) : (s.apply call).Ordered where
  accepted_le a ha := by
    rcases accepted_apply ha with hold | ⟨-, -, heq⟩
    · exact (h.accepted_le a hold).trans (s.promised_le_apply call)
    · rw [heq]
  committed_le c hc := by
    rcases s.committed_apply call with hsame | ⟨p, rfl⟩
    · exact (h.committed_le c (hsame ▸ hc)).trans (s.promised_le_apply call)
    · rcases committed_commit hc with rfl | hold
      · exact hcall
      · exact h.committed_le c hold
  committed_lt a ha c hc := by
    rcases s.committed_apply call with hsame | ⟨p, rfl⟩
    · rw [hsame] at hc
      rcases accepted_apply ha with hold | ⟨rfl, hle, -⟩
      · exact h.committed_lt a hold c hc
      · refine lt_of_le_of_ne ((h.committed_le c hc).trans hle) fun heq => ?_
        exact absurd (hcall c hc heq) (not_lt.2 (heq ▸ hle))
    · have hcommitted : (s.commit p).committed = some c := hc
      have hkept : (decide ¬ a.ballot ≤ ((s.commit p).committed.map (·.ballot)).getD .none) =
          true := (Option.filter_eq_some_iff.1 ha).2
      rw [hcommitted] at hkept
      simpa using hkept

theorem expects_of_ordered (h : (s.apply call).Ordered) : s.Expects call := by
  cases call with
  | prepare b => trivial
  | propose p =>
    intro c hc heq
    by_contra hle
    rw [not_lt, heq] at hle
    rw [apply, propose_of_le hle] at h
    exact (h.committed_lt p rfl c hc).ne heq
  | commit p =>
    obtain ⟨d, hd, hle, -⟩ := s.exists_committed_commit p
    exact hle.trans (h.committed_le d hd)

theorem ordered_run (h : ExpectsAll calls) : (run calls).Ordered := by
  induction calls using List.reverseRecOn with
  | nil => exact ⟨by simp [run, new], by simp [run, new], by simp [run, new]⟩
  | append_singleton calls call ih =>
    rw [run_concat]
    have hcalls : ExpectsAll calls := fun earlier next hpre =>
      h earlier next (hpre.trans (prefix_append calls [call]))
    exact (ih hcalls).apply (h calls call prefix_rfl)

theorem advances_run {earlier : List PaxosCall} (h : (run earlier).Ordered)
    (later : List PaxosCall) : (run earlier).Advances (run (earlier ++ later)) := by
  induction later using List.reverseRecOn with
  | nil =>
    rw [append_nil]
    refine ⟨le_rfl, fun a ha a' ha' => ?_, fun c hc => ⟨c, hc, le_rfl⟩⟩
    rw [Option.mem_unique ha ha']
  | append_singleton later call ih =>
    rw [← append_assoc, run_concat]
    exact ih.apply h call

/-- The order of the ballots is kept exactly if the replica expects each call. -/
theorem keepsOrder_iff (calls : List PaxosCall) : KeepsOrder calls ↔ ExpectsAll calls := by
  constructor
  · intro h earlier call hpre
    have hordered := (h earlier [call] hpre).1
    rw [run_concat] at hordered
    exact expects_of_ordered hordered
  · intro h earlier later hpre
    have hrun : ∀ some, some <+: calls → (run some).Ordered := fun _ hsome =>
      ordered_run fun earlier call hpre => h earlier call (hpre.trans hsome)
    exact ⟨hrun _ hpre, advances_run (hrun _ ((prefix_append ..).trans hpre)) later⟩

/-- A commit of a round that the replica has not seen. -/
theorem not_keepsOrder_unseenCommit : ¬ KeepsOrder [.commit ⟨⟨5, 1⟩, [1]⟩] := by
  intro h
  have hle := (h [] _ prefix_rfl).1.committed_le ⟨⟨5, 1⟩, [1]⟩ (by decide)
  exact absurd hle (by decide)

end PaxosState

/-- What a round takes over is newer than the reported commits exactly if none of these has
overtaken what is in progress. -/
theorem CasCall.adoptsNewer_iff_notOvertaken (call : CasCall) (attempts : Nat) (ballot : Ballot)
    (promises : List PaxosPromise) :
    call.AdoptsNewer attempts ballot promises ↔ call.NotOvertaken promises := by
  unfold AdoptsNewer NotOvertaken CasCall.decide
  split_ifs with hquorum
  · simp [hquorum]
  · cases hmax : inProgress promises with
    | none =>
      have hnone := filterMap_eq_nil_iff.1 (maxByBallot_eq_none hmax)
      exact iff_of_true (by simp) (.inr (.inl hnone))
    | some adopted =>
      obtain ⟨hmem, hge⟩ := mem_maxByBallot hmax
      obtain ⟨x, hx, hin⟩ := mem_filterMap.1 hmem
      simp only [mem_cons, reduceCtorEq, Event.proposed.injEq, Option.some.injEq, false_or,
        not_mem_nil, or_false, hquorum]
      constructor
      · exact fun h => .inr ⟨x, hx, adopted, hin, h _ _ ⟨rfl, rfl⟩⟩
      · rintro (hnone | ⟨y, hy, p, hp, hlt⟩) _ _ ⟨-, rfl⟩ c hc
        · rw [hnone x hx] at hin
          cases hin
        · exact (hlt c hc).trans_le (hge p (mem_filterMap.2 ⟨y, hy, hp⟩))

section

variable {s : System} {i : Nat} {input : Input} {phase : CasPhase} {replicas : Nat → PaxosReplica}
  {events : List Event} {calls : Nat → CasCall} {nodes : List Nat} {b c : Ballot}
  {trace : List (Nat × Event)}

theorem NotOlder.mono (h : NotOlder trace b c) (l : List (Nat × Event)) :
    NotOlder (trace ++ l) b c := by
  obtain ⟨origin, htaken, hown⟩ := h
  have hsub : TakesOver trace ≤ TakesOver (trace ++ l) :=
    fun _ _ ⟨i, p, hp, hb⟩ => ⟨i, p, mem_append_left _ hp, hb⟩
  refine ⟨origin, Relation.ReflTransGen.mono hsub _ _ htaken, ?_⟩
  exact hown.imp_right fun ⟨hlt, i, p, hp, hb⟩ => ⟨hlt, i, p, mem_append_left _ hp, hb⟩

/-- Only what a quorum has accepted is committed, and a ballot that a proposal is older than can not
be chosen any more. -/
structure OrderInv (calls : Nat → CasCall) (nodes : List Nat) (s : System) : Prop where
  accepts : ∀ {i attempts p adopted accepts}, s.phases i = .proposing attempts p adopted accepts →
    accepts.length ≤ nodes.length ∧ ∀ {j r : Nat} {accept : PaxosAccept},
      (calls i).coordinator.replicas[j]? = some r → accepts[j]? = some accept →
      accept.accepted = true → AcceptedAt calls s (calls i).partitionKey r p
  committing : ∀ {i attempts p adopted sent}, s.phases i = .committing attempts p adopted sent →
    (board calls s (calls i).partitionKey).Chosen (Quorum nodes) p.ballot
  applied : ∀ {k r p}, AppliedAt calls s k r p → (board calls s k).Chosen (Quorum nodes) p.ballot
  notOlder : ∀ {i p adopted}, (i, .proposed p adopted) ∈ s.trace → ∀ b < p.ballot,
    (board calls s (calls i).partitionKey).Blocked (Quorum nodes) b ∨ NotOlder s.trace b p.ballot

namespace OrderInv

theorem new : OrderInv calls nodes .new where
  accepts h := nomatch h
  committing h := nomatch h
  applied := fun ⟨_, _, h⟩ => nomatch h
  notOlder h := nomatch h

section

variable (h : OrderInv calls nodes s)
  (hmove : Move (calls i) input s.replicas (s.phases i) phase replicas events)

include h hmove

theorem accepts_after (hshares : Shares calls nodes) {i' attempts : Nat} {p : Proposal}
    {adopted : Bool} {accepts : List PaxosAccept}
    (hphase : (s.after i phase replicas events).phases i' = .proposing attempts p adopted accepts) :
    accepts.length ≤ nodes.length ∧ ∀ {j r : Nat} {accept : PaxosAccept},
      (calls i').coordinator.replicas[j]? = some r → accepts[j]? = some accept →
      accept.accepted = true →
        AcceptedAt calls (s.after i phase replicas events) (calls i').partitionKey r p := by
  rcases phases_after_cases hphase with ⟨rfl, rfl⟩ | hphase
  · generalize hbefore : s.phases i' = before at hmove
    cases hmove with
    | adopt _ _ _ => simp
    | met _ => simp
    | @propose _ _ _ accepts r₀ hr₀ =>
      obtain ⟨-, hold⟩ := h.accepts hbefore
      have hlt := (List.getElem?_eq_some_iff.1 hr₀).1
      rw [(hshares.perm i').length_eq] at hlt
      refine ⟨by simpa using hlt, fun {j r accept} hr haccept hyes => ?_⟩
      rcases getElem?_concat_cases haccept with hearlier | ⟨rfl, rfl⟩
      · exact (hold hr hearlier hyes).after
      · obtain rfl := Option.some.inj (hr₀.symm.trans hr)
        exact ⟨i', rfl, (mem_trace_after ..).2 (.inr ⟨rfl, by simp [hyes]⟩)⟩
  · obtain ⟨hlen, hold⟩ := h.accepts hphase
    exact ⟨hlen, fun hr haccept hyes => (hold hr haccept hyes).after⟩

theorem committing_after (hshares : Shares calls nodes) {i' attempts sent : Nat} {p : Proposal}
    {adopted : Bool}
    (hphase : (s.after i phase replicas events).phases i' = .committing attempts p adopted sent) :
    (board calls (s.after i phase replicas events) (calls i').partitionKey).Chosen (Quorum nodes)
      p.ballot := by
  have hkeep := board_extends hmove (calls i').partitionKey
  refine Board.Chosen.extends ?_ hkeep
  rcases phases_after_cases hphase with ⟨rfl, rfl⟩ | hphase
  · generalize hbefore : s.phases i' = before at hmove
    cases hmove with
    | chosen hall hquorum =>
      obtain ⟨hlen, haccepted⟩ := h.accepts hbefore
      obtain ⟨q, hq, hyes⟩ := hshares.exists_quorum hall hlen hquorum
      refine ⟨q, hq, fun r hr => ?_⟩
      obtain ⟨j, accept, hj, haccept, hyes⟩ := hyes r hr
      exact ⟨p, rfl, haccepted hj haccept hyes⟩
    | commit _ => exact h.committing hbefore
  · exact h.committing hphase

theorem applied_after {k : Bytes} {r : Nat} {p : Proposal}
    (happlied : AppliedAt calls (s.after i phase replicas events) k r p) :
    (board calls (s.after i phase replicas events) k).Chosen (Quorum nodes) p.ballot := by
  have hkeep := board_extends hmove k
  refine Board.Chosen.extends ?_ hkeep
  obtain ⟨j, rfl, hmem⟩ := happlied
  rw [mem_trace_after] at hmem
  rcases hmem with hold | ⟨rfl, hnew⟩
  · exact h.applied ⟨j, rfl, hold⟩
  · generalize hbefore : s.phases j = before at hmove
    cases hmove with
    | commit _ =>
      obtain ⟨rfl, rfl⟩ : _ ∧ _ := by simpa using hnew
      exact h.committing hbefore
    | propose _ => split at hnew <;> simp at hnew
    | _ => simp at hnew

/-- A round that takes over the newest report, which no commit has overtaken, is not older than what
can be chosen below it. -/
theorem notOlder_after (hinv : Inv calls nodes s) (hshares : Shares calls nodes)
    (horder : DecidesInOrder calls s (i, input)) {i' : Nat} {p : Proposal} {adopted : Option Ballot}
    (hmem : (i', .proposed p adopted) ∈ (s.after i phase replicas events).trace) (hlt : b < p.ballot) :
    (board calls (s.after i phase replicas events) (calls i').partitionKey).Blocked (Quorum nodes) b ∨
      NotOlder (s.after i phase replicas events).trace b p.ballot := by
  have hkeep := board_extends hmove (calls i').partitionKey
  have hproposed := hmem
  rw [mem_trace_after] at hmem
  rcases hmem with hold | ⟨rfl, hnew⟩
  · exact (h.notOlder hold b hlt).imp (fun hblocked => hblocked.extends hkeep)
      fun hvalue => hvalue.mono _
  · generalize hbefore : s.phases i' = before at hmove
    cases hmove with
    | @adopt _ ballot promises taken hall hquorum hadopt =>
      obtain ⟨rfl, rfl⟩ : p = ⟨ballot, taken.mutation⟩ ∧ adopted = some taken.ballot := by
        simpa using hnew
      have htakes := (⟨i', _, hproposed, rfl⟩ : TakesOver _ taken.ballot ballot)
      rcases lt_trichotomy b taken.ballot with hbelow | rfl | habove
      · obtain ⟨l, a, hk, hl⟩ := hinv.exists_proposed_of_adopt hshares hbefore hadopt
        rcases h.notOlder hl b hbelow with hblocked | hvalue
        · rw [hk] at hblocked
          exact .inl (hblocked.extends hkeep)
        · obtain ⟨origin, htaken, hown⟩ := hvalue.mono _
          exact .inr ⟨origin, htaken.tail htakes, hown⟩
      · exact .inr ⟨_, .single htakes, .inl rfl⟩
      · refine .inl (Board.Blocked.extends ?_ hkeep)
        obtain ⟨q, hq, hprom, hreport⟩ := hinv.exists_reports hshares hbefore hall hquorum
        refine Board.blocked_of_no_vote hq hprom hlt ?_
        rintro r hr ⟨voted, rfl, hvoted⟩
        rcases hreport r hr voted hvoted hlt with ⟨p', hp', hle⟩ | ⟨e, he, -, hle⟩
        · exact absurd (hle.trans ((mem_maxByBallot hadopt).2 p' hp')) (not_le.2 habove)
        · obtain ⟨x, hx, hxe⟩ := mem_filterMap.1 he
          have hreported : e.ballot ∈ CasCall.reported promises :=
            mem_filterMap.2 ⟨x, hx, by simp [hxe]⟩
          have hnewer := ((calls i').adoptsNewer_iff_notOvertaken 0 ballot promises).2
            (horder _ _ _ hbefore hall) ⟨ballot, taken.mutation⟩ taken.ballot
            (by simp [CasCall.decide, not_lt.2 hquorum, hadopt]) e.ballot hreported
          exact absurd (hle.trans_lt hnewer) (not_lt.2 habove.le)
    | met _ =>
      obtain ⟨rfl, rfl⟩ : _ ∧ _ := by simpa using hnew
      exact .inr ⟨_, .refl, .inr ⟨hlt, i', _, hproposed, rfl⟩⟩
    | propose _ => split at hnew <;> simp at hnew
    | _ => simp at hnew

end

theorem after (h : OrderInv calls nodes s) (hinv : Inv calls nodes s) (hshares : Shares calls nodes)
    (hmove : Move (calls i) input s.replicas (s.phases i) phase replicas events)
    (horder : DecidesInOrder calls s (i, input)) :
    OrderInv calls nodes (s.after i phase replicas events) where
  accepts := h.accepts_after hmove hshares
  committing := h.committing_after hmove hshares
  applied := h.applied_after hmove
  notOlder hmem _ := h.notOlder_after hmove hinv hshares horder hmem

end OrderInv

variable {steps : List (Nat × Input)}

theorem orderInv_run (hshares : Shares calls nodes) (hdistinct : (run calls steps).DistinctBallots)
    (hevery : EveryStep calls (DecidesInOrder calls) steps) :
    OrderInv calls nodes (run calls steps) := by
  induction steps using List.reverseRecOn with
  | nil => exact .new
  | append_singleton steps step ih =>
    rw [run_concat] at hdistinct ⊢
    have hbefore := hdistinct.sublist (ballots_sublist _ _ _)
    obtain ⟨hevery, horder⟩ := hevery.concat
    obtain ⟨phase, replicas, events, hmove, heq⟩ := (run calls steps).step_move calls step.1 step.2
    rw [heq]
    exact (ih hbefore hevery).after (inv_run hshares steps hbefore) hshares hmove horder

/-- What a replica has committed stays recorded, and the ballot of its commit only grows. -/
theorem committed_run (hshares : Shares calls nodes) {earlier later : List (Nat × Input)}
    (hdistinct : (run calls (earlier ++ later)).DistinctBallots) {r : Nat} {k : Bytes} {p : Proposal}
    (hp : (((run calls earlier).replicas r).state k).committed = some p) :
    AppliedAt calls (run calls (earlier ++ later)) k r p ∧
      ∃ p', (((run calls (earlier ++ later)).replicas r).state k).committed = some p' ∧
        p.ballot ≤ p'.ballot := by
  induction later using List.reverseRecOn with
  | nil =>
    rw [append_nil] at hdistinct ⊢
    exact ⟨((inv_run hshares earlier hdistinct).replica k r).committed hp, p, hp, le_rfl⟩
  | append_singleton later step ih =>
    rw [← append_assoc, run_concat] at hdistinct ⊢
    obtain ⟨happlied, p', hp', hle⟩ := ih (hdistinct.sublist (ballots_sublist _ _ _))
    obtain ⟨phase, replicas, events, hmove, heq⟩ :=
      (run calls (earlier ++ later)).step_move calls step.1 step.2
    rw [heq, after_replicas]
    refine ⟨happlied.after, ?_⟩
    obtain ⟨hstate, -⟩ | ⟨-, ⟨_, hstate, -⟩ | ⟨_, _, _, _, -, -, -, hstate⟩ | ⟨q, hstate, -⟩⟩ :=
      hmove.state_cases r k <;> rw [hstate]
    · exact ⟨p', hp', hle⟩
    · exact ⟨p', hp', hle⟩
    · exact ⟨p', hp', hle⟩
    · obtain ⟨d, hd, -, hnewer⟩ := PaxosState.exists_committed_commit _ q
      exact ⟨d, hd, hle.trans (hnewer p' hp')⟩

theorem keepsCommits_of_decidesInOrder (hshares : Shares calls nodes)
    (hdistinct : (run calls steps).DistinctBallots)
    (hevery : EveryStep calls (DecidesInOrder calls) steps) : KeepsCommits calls steps := by
  rintro earlier ⟨later, rfl⟩ r k p p' hp hp'
  have hinv := inv_run hshares _ hdistinct
  have horder := orderInv_run hshares hdistinct hevery
  obtain ⟨happlied, newest, hnewest, hle⟩ := committed_run hshares hdistinct hp
  obtain rfl := Option.some.inj (hnewest.symm.trans hp')
  rcases hle.eq_or_lt with heq | hlt
  · exact ⟨p.ballot, heq ▸ .refl, .inl rfl⟩
  · -- a replica of the quorum that chose the later commit knows its proposal
    obtain ⟨q, hq, hvoted⟩ := horder.applied ((hinv.replica k r).committed hnewest)
    obtain ⟨r', hr'⟩ : q.Nonempty := Finset.inter_self q ▸ quorum_meet hq hq
    obtain ⟨voted, hballot, hvoted⟩ := hvoted r' hr'
    obtain ⟨i, adopted, rfl, hproposed⟩ := (hinv.replica k r').proposed hvoted
    rw [← hballot] at hlt ⊢
    rcases horder.notOlder hproposed p.ballot hlt with hblocked | hvalue
    · exact absurd (horder.applied happlied) (hblocked.not_chosen fun _ _ => quorum_meet)
    · exact hvalue

end

/-- Two nodes write to the same row, without a condition. -/
def blindWrites (i : Nat) : CasCall := { twoInserts i with condition := fun _ => true }

/-- What a round takes over is newer than the reported commits exactly if none of these has
overtaken what is in progress; and as long as this is so in every round, no replica replaces a
committed value by an older one. -/
theorem CasCall.adoptsNewer_iff (call : CasCall) (attempts : Nat) (ballot : Ballot)
    (promises : List PaxosPromise) :
    (call.AdoptsNewer attempts ballot promises ↔ call.NotOvertaken promises) ∧
    ∀ (calls : Nat → CasCall) (nodes : List Nat), Shares calls nodes → ∀ steps,
      (System.run calls steps).DistinctBallots → EveryStep calls (DecidesInOrder calls) steps →
        KeepsCommits calls steps :=
  ⟨call.adoptsNewer_iff_notOvertaken attempts ballot promises, fun _ _ hshares _ hdistinct hevery =>
    keepsCommits_of_decidesInOrder hshares hdistinct hevery⟩

/-- One write after the other: the second value replaces the first one. -/
theorem adoptsNewer_iff_inTurn :
    let steps := List.replicate 14 (0, ⟨1, none⟩) ++ List.replicate 14 (1, ⟨2, none⟩)
    (((System.run blindWrites (steps.take 14)).replicas 0).state [0]).committed =
        some ⟨⟨1, 1⟩, [1]⟩ ∧
      (((System.run blindWrites steps).replicas 0).state [0]).committed = some ⟨⟨2, 2⟩, [2]⟩ ∧
      KeepsCommits blindWrites steps := by
  intro steps
  refine ⟨by decide, by decide, ((blindWrites 0).adoptsNewer_iff 0 ⟨1, 1⟩ []).2 blindWrites
    [0, 1, 2] ⟨by decide, shares_twoInserts.perm, shares_twoInserts.majority⟩ steps ?_
    (.of_forall ?_)⟩
  · unfold System.DistinctBallots
    decide
  · -- no promise of the run reports anything in progress
    have hnone : ∀ n : Fin steps.length,
        (match (System.run blindWrites (steps.take n)).phases (steps.get n).1 with
          | .preparing _ _ promises => promises.all (·.inProgress.isNone)
          | _ => true) = true := by decide
    intro n attempts ballot promises hphase _
    have hn := hnone n
    rw [hphase] at hn
    exact .inr (.inl (by simpa using hn))

/-- Call 2 has prepared at one replica, which has accepted the proposal of call 0, when call 0 and
then call 1 commit; it goes on to prepare at the others. -/
def preparedEarly : List (Nat × Input) :=
  List.replicate 7 (0, ⟨1, none⟩) ++ List.replicate 2 (2, ⟨3, none⟩) ++
    List.replicate 7 (0, ⟨1, none⟩) ++ List.replicate 14 (1, ⟨2, none⟩) ++
    List.replicate 2 (2, ⟨3, none⟩)

/-- Call 2 takes over the proposal of call 0, though the commit of call 1 is reported to it, and
commits it again. -/
theorem not_adoptsNewer_preparedEarly :
    (∃ promises, (System.run blindWrites preparedEarly).phases 2 = .preparing 1 ⟨3, 2⟩ promises ∧
      ¬ (blindWrites 2).AdoptsNewer 1 ⟨3, 2⟩ promises) ∧
    Before (System.run blindWrites (preparedEarly ++ List.replicate 6 (2, ⟨3, none⟩))).trace
      (1, .applied 0 ⟨⟨2, 2⟩, [2]⟩) (2, .applied 0 ⟨⟨3, 2⟩, [1]⟩) := by
  refine ⟨⟨[⟨true, ⟨3, 2⟩, some ⟨⟨1, 1⟩, [1]⟩, none⟩, ⟨true, ⟨3, 2⟩, none, some ⟨⟨2, 2⟩, [2]⟩⟩,
    ⟨true, ⟨3, 2⟩, none, some ⟨⟨2, 2⟩, [2]⟩⟩], by decide, fun h => ?_⟩, ?_⟩
  · exact absurd (h ⟨⟨3, 2⟩, [1]⟩ ⟨1, 1⟩ (by decide) ⟨2, 2⟩ (by decide)) (by decide)
  · unfold Before
    decide

end CassandraVerified.Paxos
