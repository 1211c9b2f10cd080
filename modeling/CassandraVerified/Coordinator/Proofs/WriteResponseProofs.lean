import CassandraVerified.Coordinator.WriteResponse

/-!
# What a write response handler reports

In an orderly run the counter of acknowledgements is the number of replicas that acknowledged, and
whenever `await_completion` waits un-notified this number is below the required one.
-/

namespace CassandraVerified.Coordinator

open List AwaitState

variable {E : Type} {config : HandlerConfig E} {s : AwaitState E}

/-- What the phase says about the number of acknowledgements. -/
def AwaitPhase.Fits [DecidableEq E] (config : HandlerConfig E) (count : Nat) : AwaitPhase E → Prop
  | .notMet | .looked | .polled _ | .waiting false => count < config.required
  | phase => OutcomeSound config phase

/-- What holds in every state of an orderly run. -/
structure AwaitInv [DecidableEq E] (config : HandlerConfig E) (s : AwaitState E) : Prop where
  count : s.handler.acksReceived = s.acked.length
  nodup : s.acked.Nodup
  noHint : config.cl = .any → s.handler.hintsStored = 0
  fits : s.phase.Fits config s.acked.length

namespace AwaitInv

variable [DecidableEq E]

theorem new : AwaitInv config .new := ⟨rfl, nodup_nil, fun _ => rfl, trivial⟩

section

variable (hinv : AwaitInv config s)

include hinv

theorem card_acked : s.acked.toFinset.card = s.acked.length := toFinset_card_of_nodup hinv.nodup

theorem isClMet_iff (hany : config.cl = .any → config.required = 1) :
    s.handler.isClMet config = true ↔ config.required ≤ s.acked.length := by
  unfold Handler.isClMet
  split_ifs with hcl
  · have hnone := hinv.noHint hcl
    have hone := hany hcl
    have hcount := hinv.count
    rw [decide_eq_true_iff]
    omega
  · rw [decide_eq_true_iff, hinv.count]

theorem moveTo {phase : AwaitPhase E} (hfits : phase.Fits config s.acked.length) :
    AwaitInv config { s with phase } :=
  ⟨hinv.count, hinv.nodup, hinv.noHint, hfits⟩

theorem makeResult (henough : config.required ≤ s.acked.length) :
    AwaitInv config (s.makeResult config) :=
  hinv.moveTo (by simpa [AwaitPhase.Fits, OutcomeSound, hinv.card_acked] using henough)

theorem makeTimeoutError (hfew : s.acked.length < config.required) :
    AwaitInv config (s.makeTimeoutError config) :=
  hinv.moveTo (by simpa [AwaitPhase.Fits, OutcomeSound, hinv.card_acked] using hfew)

theorem makeFailureError : AwaitInv config (s.makeFailureError config) := hinv.moveTo trivial

theorem advance (hany : config.cl = .any → config.required = 1)
    (horderly : OrderlyStep config s .advance) : AwaitInv config (s.advance config) := by
  have hmet := hinv.isClMet_iff hany
  have hfits := hinv.fits
  unfold AwaitState.advance
  cases hphase : s.phase with
  | start =>
    dsimp only
    split_ifs with hlate
    · exact hinv.makeTimeoutError (horderly hphase hlate)
    · exact hinv.moveTo trivial
  | fastPath =>
    dsimp only
    split_ifs with henough
    · exact hinv.makeResult (hmet.1 henough)
    · exact hinv.moveTo trivial
  | loopHead =>
    dsimp only
    split_ifs with henough
    · exact hinv.moveTo trivial
    · exact hinv.moveTo (not_le.1 fun hle => henough (hmet.2 hle))
  | notMet =>
    rw [hphase] at hfits
    dsimp only
    split_ifs
    · exact hinv.moveTo trivial
    · exact hinv.moveTo hfits
  | looked =>
    rw [hphase] at hfits
    exact hinv.moveTo hfits
  | polled notified =>
    rw [hphase] at hfits
    dsimp only
    split_ifs
    · exact hinv.makeTimeoutError hfits
    · cases notified with
      | false => exact hinv.moveTo hfits
      | true => exact hinv.moveTo trivial
  | waiting notified =>
    rw [hphase] at hfits
    cases notified with
    | false => exact hinv.moveTo hfits
    | true => exact hinv.moveTo trivial
  | left =>
    dsimp only
    split_ifs with henough
    · exact hinv.makeResult (hmet.1 henough)
    · exact hinv.makeFailureError
  | decided outcome acked => exact hinv

end

theorem fits_notify {phase : AwaitPhase E} {count : Nat} (hfits : phase.Fits config count) :
    phase.notify.Fits config count := by
  cases phase with
  | waiting notified => trivial
  | _ => exact hfits

theorem response (hinv : AwaitInv config s) {sender : E}
    (horderly : OrderlyStep config s (.response sender)) :
    AwaitInv config (s.step config (.response sender)) := by
  obtain ⟨hfresh, hbehind⟩ := horderly
  refine ⟨?_, ?_, hinv.noHint, ?_⟩
  · simp [step, record, Handler.onResponse, hinv.count]
  · simpa [step, nodup_append] using ⟨hinv.nodup, fun a hmem heq => hfresh (heq ▸ hmem)⟩
  · have hfits := hinv.fits
    have hcount := hinv.count
    simp only [step, record, Handler.onResponse, length_append,
      length_singleton, hcount, ge_iff_le, decide_eq_true_eq]
    cases hphase : s.phase with
    | waiting notified =>
      cases notified with
      | true => split <;> trivial
      | false =>
        -- completing the number notifies the waiter
        split_ifs with hcomplete
        · trivial
        · exact not_le.1 hcomplete
    | notMet | looked | polled notified =>
      have hfew := hbehind (by rw [hphase]; trivial)
      rw [if_neg (by omega)]
      exact hfew
    | start | fastPath | loopHead | left => split <;> trivial
    | decided outcome acked =>
      rw [hphase] at hfits
      split <;> exact hfits

theorem step (hinv : AwaitInv config s) (hany : config.cl = .any → config.required = 1)
    {step : AwaitStep E} (horderly : OrderlyStep config s step) :
    AwaitInv config (s.step config step) := by
  cases step with
  | response sender => exact hinv.response horderly
  | failure sender reason =>
    refine ⟨hinv.count, hinv.nodup, hinv.noHint, ?_⟩
    simp only [AwaitState.step, AwaitState.record]
    split
    · exact fits_notify hinv.fits
    · exact hinv.fits
  | hintStored => exact ⟨hinv.count, hinv.nodup, fun hcl => absurd hcl horderly, hinv.fits⟩
  | deadline => exact ⟨hinv.count, hinv.nodup, hinv.noHint, hinv.fits⟩
  | advance => exact hinv.advance hany horderly

theorem run (hany : config.cl = .any → config.required = 1) (steps : List (AwaitStep E)) :
    ∀ {s : AwaitState E}, AwaitInv config s → Orderly config s steps →
      AwaitInv config (s.run config steps) := by
  induction steps with
  | nil => exact fun hinv _ => hinv
  | cons step steps ih => exact fun hinv horderly => ih (hinv.step hany horderly.1) horderly.2

theorem outcomeSound (hinv : AwaitInv config s) : OutcomeSound config s.phase := by
  have hfits := hinv.fits
  cases hphase : s.phase with
  | decided outcome acked => rwa [hphase] at hfits
  | _ => trivial

end AwaitInv

/-- In an orderly run, success comes only after the required number of replicas acknowledged, and a
timeout only when they had not. -/
theorem outcomeSound_run [DecidableEq E] (hany : config.cl = .any → config.required = 1)
    (steps : List (AwaitStep E)) (horderly : Orderly config .new steps) :
    OutcomeSound config (new.run config steps).phase :=
  (AwaitInv.run hany steps AwaitInv.new horderly).outcomeSound

/-- Three replicas, two of which must acknowledge. -/
def twoOfThree : HandlerConfig Nat := ⟨.quorum, .simple, 2, [1, 2, 3]⟩

theorem outcomeSound_oneBefore : OutcomeSound twoOfThree (new.run twoOfThree
      [.response 1, .advance, .advance, .advance, .advance, .advance, .response 3, .advance,
        .advance, .advance]).phase :=
  outcomeSound_run (by decide) _ (by simp [Orderly, OrderlyStep, step, new,
    twoOfThree, advance, record, Handler.onResponse, Handler.isClMet,
    Handler.isClImpossible, Handler.new, AwaitPhase.Committed, AwaitPhase.notify])

/-- An acknowledgement is counted twice; one that arrives between the last look at the counter and
the wait is not noticed; a late `await_completion` does not look at the counter. -/
theorem not_outcomeSound_runs : ¬ OutcomeSound twoOfThree (new.run twoOfThree
      [.response 1, .response 1, .advance, .advance]).phase ∧
    ¬ OutcomeSound twoOfThree (new.run twoOfThree
      [.response 1, .advance, .advance, .advance, .advance, .response 2, .advance, .advance,
        .deadline, .advance]).phase ∧
    ¬ OutcomeSound twoOfThree (new.run twoOfThree
      [.response 1, .response 2, .deadline, .advance]).phase := by
  exact ⟨show ¬ 2 ≤ [1, 1].toFinset.card by decide, show ¬ [1, 2].toFinset.card < 2 by decide,
    show ¬ [1, 2].toFinset.card < 2 by decide⟩

namespace DcHandler

variable [DecidableEq E] {config : DcConfig E} {reports : List (DcReport E)}

/-- The counter of acknowledgements, or that of failures. -/
def counter (h : DcHandler) (acked : Bool) : String → Nat :=
  if acked then h.dcAcks else h.dcFailures

theorem counter_run (config : DcConfig E) (reports : List (DcReport E)) (acked : Bool)
    (dc : String) :
    (run config reports).counter acked dc =
      reports.countP fun r => r.acked = acked ∧ config.dcOf r.sender = dc := by
  induction reports using List.reverseRecOn with
  | nil => cases acked <;> rfl
  | append_singleton reports r ih =>
    rw [run, foldl_concat, countP_append, ← ih, ← run]
    obtain ⟨sender, reported⟩ := r
    by_cases hdc : config.dcOf sender = dc
    · subst hdc
      cases reported <;> cases acked <;> simp [counter, onResponseFromDc, onFailureFromDc]
    · cases reported <;> cases acked <;>
        simp [counter, onResponseFromDc, onFailureFromDc, hdc, Ne.symm hdc]

/-- A counter is the number of the replicas that it stands for. -/
theorem counter_run_eq (h : config.Once reports) (acked : Bool) (dc : String) :
    (run config reports).counter acked dc = (config.replicas dc).countP (⟨·, acked⟩ ∈ reports) := by
  have hdc : ∀ {e}, e ∈ config.endpointDc.map Prod.fst →
      (config.dcOf e = dc ↔ (e, dc) ∈ config.endpointDc) := by
    intro e he
    obtain ⟨x, hx, rfl⟩ := mem_map.mp he
    have hlookup := (TreeMap.lookup_eq_some_iff config.nodup).mpr hx
    rw [DcConfig.dcOf, ← TreeMap.lookup_eq_some_iff config.nodup, hlookup]
    simp
  have hreplicas : (config.replicas dc).Nodup := config.nodup.sublist (filter_sublist.map _)
  rw [counter_run, countP_eq_length_filter, countP_eq_length_filter, ← length_map (·.sender)]
  refine ((perm_ext_iff_of_nodup (h.nodup.sublist (filter_sublist.map _))
    (hreplicas.filter _)).mpr fun e => ?_).length_eq
  simp only [mem_map, mem_filter, decide_eq_true_eq, DcConfig.replicas]
  constructor
  · rintro ⟨r, ⟨hr, rfl, hof⟩, rfl⟩
    exact ⟨⟨_, ⟨(hdc (h.known r hr)).mp hof, rfl⟩, rfl⟩, hr⟩
  · rintro ⟨⟨x, ⟨hx, rfl⟩, rfl⟩, hr⟩
    exact ⟨_, ⟨hr, rfl, (hdc (mem_map_of_mem hx)).mpr hx⟩, rfl⟩

omit [DecidableEq E] in
theorem not_failed_of_acked (h : config.Once reports) {e : E} (hacked : ⟨e, true⟩ ∈ reports) :
    ⟨e, false⟩ ∉ reports := fun hfailed =>
  absurd (inj_on_of_nodup_map h.nodup hacked hfailed rfl) (by simp)

/-- A datacenter cannot do it any more if too few of its replicas have not failed. -/
theorem isDcClImpossible_iff (h : config.Once reports) :
    (run config reports).isDcClImpossible config = true ↔ ∃ x ∈ config.dcRequired,
        (config.replicas x.1).countP (fun e => !decide (⟨e, false⟩ ∈ reports)) < x.2 := by
  rw [isDcClImpossible, any_eq_true]
  refine exists_congr fun x => and_congr_right fun _ => ?_
  have hacks := counter_run_eq h true x.1
  have hfailures := counter_run_eq h false x.1
  have htotal : (config.endpointDc.map Prod.snd).countP (· = x.1) =
      (config.replicas x.1).length := by
    rw [DcConfig.replicas, length_map, countP_map, countP_eq_length_filter]
    rfl
  have hsplit := length_eq_countP_add_countP (fun e => decide (⟨e, false⟩ ∈ reports))
    (l := config.replicas x.1)
  have hle : (config.replicas x.1).countP (⟨·, true⟩ ∈ reports) ≤
      (config.replicas x.1).countP fun e => !decide (⟨e, false⟩ ∈ reports) :=
    countP_mono_left fun e _ he => by simpa using not_failed_of_acked h (of_decide_eq_true he)
  simp only [counter, if_true, Bool.false_eq_true, if_false] at hacks hfailures
  simp only [hacks, hfailures, htotal, decide_eq_true_eq]
  simp only [decide_not, Bool.decide_eq_true] at hsplit
  omega

/-- The consistency level is met exactly when the acknowledgements have arrived, and impossible
exactly when they cannot arrive any more, however the other replicas report. -/
theorem dcTracking_exact (h : config.Once reports) :
    ((run config reports).isDcClMet config = true ↔ config.Arrived reports) ∧
    ((run config reports).isDcClImpossible config = true ↔
      ∀ more, config.Once (reports ++ more) → ¬ config.Arrived (reports ++ more)) := by
  constructor
  · have hacks := counter_run_eq h true
    simp only [counter, if_true] at hacks
    simp [isDcClMet, DcConfig.Arrived, hacks]
  · rw [isDcClImpossible_iff h]
    constructor
    · rintro ⟨x, hx, hlt⟩ more hmore harrived
      refine absurd (harrived x hx) (not_le.mpr (lt_of_le_of_lt ?_ hlt))
      refine countP_mono_left fun e _ he => ?_
      have hnot := not_failed_of_acked hmore (of_decide_eq_true he)
      simpa using fun hin => hnot (mem_append_left _ hin)
    · -- all replicas that have not reported may still acknowledge
      intro hnever
      by_contra hall
      push Not at hall
      let silent := (config.endpointDc.map Prod.fst).filter (· ∉ reports.map (·.sender))
      refine hnever (silent.map (⟨·, true⟩)) ⟨?_, ?_⟩ fun x hx => (hall x hx).trans ?_
      · rw [map_append, map_map, nodup_append]
        refine ⟨h.nodup, (config.nodup.filter _).map Function.injective_id, fun e he e' he' => ?_⟩
        obtain ⟨e', hsilent, rfl⟩ := mem_map.mp he'
        rintro rfl
        exact of_decide_eq_true (mem_filter.mp hsilent).2 he
      · intro r hr
        rcases mem_append.mp hr with hr | hr
        · exact h.known r hr
        · obtain ⟨e, he, rfl⟩ := mem_map.mp hr
          exact (mem_filter.mp he).1
      · refine countP_mono_left fun e he hnot => decide_eq_true (mem_append.mpr ?_)
        obtain ⟨y, hy, rfl⟩ := mem_map.mp he
        have hin : y.1 ∈ config.endpointDc.map Prod.fst := mem_map_of_mem (mem_filter.mp hy).1
        by_cases hsent : y.1 ∈ reports.map (·.sender)
        · obtain ⟨⟨sender, acked⟩, hr, rfl⟩ := mem_map.mp hsent
          cases acked with
          | true => exact .inl hr
          | false => exact absurd hr (by simpa using hnot)
        · exact .inr (mem_map_of_mem (mem_filter.mpr ⟨hin, decide_eq_true hsent⟩))

/-- Two of three replicas have to acknowledge; two have failed. -/
theorem dcTracking_exact_twoFailed :
    let config : DcConfig Nat := ⟨[("dc1", 2)], [(1, "dc1"), (2, "dc1"), (3, "dc1")], by decide⟩
    (run config [⟨1, false⟩, ⟨2, false⟩]).isDcClImpossible config = true ∧
      ¬ config.Arrived ([⟨1, false⟩, ⟨2, false⟩] ++ [⟨3, true⟩]) := by
  intro config
  have h : config.Once [⟨1, false⟩, ⟨2, false⟩] := ⟨by decide, by decide⟩
  have himpossible : (run config [⟨1, false⟩, ⟨2, false⟩]).isDcClImpossible config = true := by
    decide
  exact ⟨himpossible, (dcTracking_exact h).2.mp himpossible [⟨3, true⟩] ⟨by decide, by decide⟩⟩

end DcHandler

end CassandraVerified.Coordinator
