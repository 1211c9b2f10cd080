import CassandraVerified.Coordinator.Write

/-!
# Accepted writes

A write at a level other than `ANY` is accepted only with a live replica. At `ANY` the coordinator
counts the dead replicas as hints, whether or not the hint store took a hint for one of them.
-/

namespace CassandraVerified.Coordinator

open List HintStore WriteCoordinator

variable {E : Type} {ext : HintExternal E} {clock : Nat → HintClock} {s : HintStore E}
  {c : WriteCoordinator E} {mutation : CoordinatedMutation} {cl : ConsistencyLevel}

namespace HintStore

@[simp] theorem hints_persist (hint : Hint E) (clock : HintClock) :
    (s.persist ext hint clock).hints = s.hints := by
  unfold persist
  split <;> rfl

variable [DecidableEq E] {target : E} {hint : Hint E}

theorem hints_enqueue (s : HintStore E) (hint : Hint E) : ∃ queue, (s.enqueue hint).hints =
      Function.update s.hints hint.target (some (queue ++ [hint])) := by
  by_cases hfull : ((s.hints hint.target).getD []).length ≥ s.config.maxHintsPerEndpoint
  · exact ⟨((s.hints hint.target).getD []).drop 1, by simp only [enqueue, if_pos hfull]⟩
  · exact ⟨(s.hints hint.target).getD [], by simp only [enqueue, if_neg hfull]⟩

theorem storeHint_of_admits (ext : HintExternal E) (clock : HintClock) (target : E)
    (mutation : CoordinatedMutation) (hadmits : s.Admits) :
    (s.storeHint ext clock target mutation).2 = true ∧
      ∃ queue, (s.storeHint ext clock target mutation).1.hints = Function.update s.hints target
        (some (queue ++ [s.newHint clock target mutation])) := by
  have hroom := UInt64.not_le.2 hadmits.room
  simp only [storeHint, hadmits.enabled, Bool.not_true, Bool.false_eq_true, if_false, ge_iff_le,
    hroom, hints_persist, true_and]
  exact hints_enqueue _ _

theorem storeHint_of_not_admits (clock : HintClock) (target : E) (mutation : CoordinatedMutation)
    (hrejects : ¬ s.Admits) : s.storeHint ext clock target mutation = (s, false) := by
  unfold storeHint
  cases henabled : s.config.enabled with
  | false => rfl
  | true =>
    have hfull : s.totalHints ≥ s.config.maxTotalHints :=
      UInt64.not_lt.1 fun hroom => hrejects ⟨henabled, hroom⟩
    simp [hfull]

/-- The hint is the last one in the queue of its target. -/
def IsLast (s : HintStore E) (target : E) (hint : Hint E) : Prop :=
  hint.target = target ∧ ∃ queue, s.hints target = some (queue ++ [hint])

theorem isLast_storeHint (ext : HintExternal E) (clock : HintClock) (target : E)
    (mutation : CoordinatedMutation) (hadmits : s.Admits) :
    (s.storeHint ext clock target mutation).1.IsLast target (s.newHint clock target mutation) := by
  obtain ⟨-, queue, hhints⟩ := s.storeHint_of_admits ext clock target mutation hadmits
  exact ⟨rfl, queue, by rw [hhints, Function.update_self]⟩

theorem IsLast.storeHint_ne (hlast : s.IsLast target hint) {other : E} (hne : other ≠ target)
    (clock : HintClock) (mutation : CoordinatedMutation) :
    (s.storeHint ext clock other mutation).1.IsLast target hint := by
  by_cases hadmits : s.Admits
  · obtain ⟨-, _, hhints⟩ := s.storeHint_of_admits ext clock other mutation hadmits
    obtain ⟨heq, queue, hhere⟩ := hlast
    exact ⟨heq, queue, by rw [hhints, Function.update_of_ne hne.symm, hhere]⟩
  · rwa [storeHint_of_not_admits clock other mutation hadmits]

theorem exists_cutoff_le (config : HintConfig) (created : Int64) :
    ∃ now ≥ created, config.cutoff now ≤ created := by
  unfold HintConfig.cutoff
  set window := Int64.ofNat config.maxHintWindow
  by_cases hfresh : created - window ≤ created
  · exact ⟨created, Int64.le_refl created, hfresh⟩
  · refine ⟨Int64.minValue + window, ?_, ?_⟩
    · rw [ge_iff_le]
      rw [Int64.le_iff_toInt_le] at hfresh ⊢
      have h1 := created.le_toInt
      have h2 := created.toInt_lt
      have h3 := window.le_toInt
      have h4 := window.toInt_lt
      simp only [Int64.toInt_sub, Int64.toInt_add, Int64.toInt_minValue, Int.bmod] at hfresh ⊢
      omega
    · rw [Int64.add_sub_cancel]
      exact Int64.minValue_le created

theorem IsLast.canDrain (hlast : s.IsLast target hint) : s.CanDrain ext hint := by
  obtain ⟨rfl, queue, hhere⟩ := hlast
  obtain ⟨now, hlater, hfresh⟩ := exists_cutoff_le s.config hint.createdAt
  refine ⟨now, hlater, ?_⟩
  simp [drainHints, resume, hhere, hfresh]

end HintStore

section

variable [DecidableEq E]

/-- The last hint of a target stays, or is followed by one that was stored since. -/
theorem exists_isLast_storeHints (ext : HintExternal E) (clock : Nat → HintClock)
    (mutation : CoordinatedMutation) {target : E} {hint : Hint E} (deads : List E) :
    ∀ (i : Nat) (s : HintStore E), s.IsLast target hint →
      ∃ hint', (hint' = hint ∨ StoredFor ext clock mutation hint' i deads s) ∧
        (storeHints ext clock mutation i deads s).IsLast target hint' := by
  induction deads generalizing hint with
  | nil => exact fun i s hlast => ⟨hint, .inl rfl, hlast⟩
  | cons dead rest ih =>
    intro i s hlast
    by_cases hstored : s.Admits ∧ dead = target
    · obtain ⟨hadmits, rfl⟩ := hstored
      obtain ⟨hint', horigin, hlast'⟩ := ih (i + 1) _
        (isLast_storeHint ext (clock i) dead mutation hadmits)
      have hsent := (storeHint_of_admits ext (clock i) dead mutation hadmits).1
      exact ⟨hint', .inr (horigin.imp_left fun heq => ⟨hsent, heq⟩), hlast'⟩
    · have hlast₁ : (s.storeHint ext (clock i) dead mutation).1.IsLast target hint := by
        by_cases hadmits : s.Admits
        · exact hlast.storeHint_ne (fun heq => hstored ⟨hadmits, heq⟩) (clock i) mutation
        · rwa [storeHint_of_not_admits (clock i) dead mutation hadmits]
      obtain ⟨hint', horigin, hlast'⟩ := ih (i + 1) _ hlast₁
      exact ⟨hint', horigin.imp_right .inr, hlast'⟩

theorem exists_storedFor_of_admits (hadmits : s.Admits) {deads : List E} (hdead : deads ≠ [])
    (i : Nat) :
    ∃ hint, StoredFor ext clock mutation hint i deads s ∧
      (storeHints ext clock mutation i deads s).CanDrain ext hint := by
  cases deads with
  | nil => exact absurd rfl hdead
  | cons dead rest =>
    obtain ⟨hint, horigin, hlast⟩ := exists_isLast_storeHints ext clock mutation rest (i + 1) _
      (isLast_storeHint ext (clock i) dead mutation hadmits)
    exact ⟨hint, horigin.imp_left fun heq => ⟨(storeHint_of_admits ext (clock i) dead mutation
      hadmits).1, heq⟩, hlast.canDrain⟩

theorem not_storedFor_of_not_admits (hrejects : ¬ s.Admits) {hint : Hint E} (deads : List E) :
    ∀ i, ¬ StoredFor ext clock mutation hint i deads s := by
  induction deads with
  | nil => exact fun i hstored => hstored
  | cons dead rest ih =>
    intro i hstored
    simp only [StoredFor, storeHint_of_not_admits _ _ _ hrejects, Bool.false_eq_true,
      false_and, false_or] at hstored
    exact ih (i + 1) hstored

end

theorem ConsistencyLevel.blockFor_pos {rf : Nat} (hpos : 0 < rf) : 0 < cl.blockFor rf := by
  cases cl <;> simp only [blockFor] <;> omega

variable [DecidableEq E] {result : WriteResult E}

/-- What an accepted write went through. -/
theorem coordinateWrite_eq_ok
    (hok : (c.coordinateWrite ext clock s mutation cl).2 = .ok result) :
    c.checkPreconditions mutation = .ok () ∧ c.checkGuardrails mutation = .ok () ∧
      ∃ plan, c.computeWritePlan mutation cl = .ok plan ∧
        completeWritePlan mutation plan plan.liveReplicas.length
          plan.deadReplicas.length plan.replicas = .ok result ∧
        (c.coordinateWrite ext clock s mutation cl).1 =
          storeHints ext clock mutation 0 plan.deadReplicas s := by
  unfold coordinateWrite at hok ⊢
  cases hpreconditions : c.checkPreconditions mutation with
  | error e => simp [hpreconditions] at hok
  | ok =>
    cases hserial : cl.isSerial with
    | true => simp [hpreconditions, hserial] at hok
    | false =>
      cases hguardrails : c.checkGuardrails mutation with
      | error e => simp [hpreconditions, hserial, hguardrails] at hok
      | ok =>
        cases hplanned : c.computeWritePlan mutation cl with
        | error e => simp [hpreconditions, hserial, hguardrails, hplanned] at hok
        | ok plan =>
          simp only [hpreconditions, hserial, hguardrails, hplanned] at hok
          exact ⟨rfl, rfl, plan, rfl, hok, by simp⟩

theorem computeWritePlan_eq_ok {plan : WritePlan E}
    (hplanned : c.computeWritePlan mutation cl = .ok plan) :
    c.cluster.replicasFor mutation.partitionKey ≠ [] ∧
    plan.liveReplicas = (c.cluster.replicasFor mutation.partitionKey).filter c.cluster.isLive ∧
    plan.deadReplicas =
      (c.cluster.replicasFor mutation.partitionKey).filter (! c.cluster.isLive ·) ∧
    plan.cl = cl ∧ (cl ≠ .any → 0 < plan.liveReplicas.length) := by
  simp only [computeWritePlan] at hplanned
  split_ifs at hplanned with hnone hfew
  have hnonempty : c.cluster.replicasFor mutation.partitionKey ≠ [] :=
    fun hnil => hnone (by rw [hnil]; rfl)
  cases hplanned
  refine ⟨hnonempty, rfl, rfl, rfl, fun hother => ?_⟩
  have henough := not_lt.1 fun hlt => hfew ⟨hother, hlt⟩
  exact lt_of_lt_of_le (ConsistencyLevel.blockFor_pos (length_pos_iff.2 hnonempty)) henough

omit [DecidableEq E] in
theorem acksReceived_of_completeWritePlan {plan : WritePlan E} {acks hints : Nat}
    {contacted : List E} (hok : completeWritePlan mutation plan acks hints contacted = .ok result) :
    result.acksReceived = acks := by
  simp only [completeWritePlan] at hok
  split_ifs at hok
  all_goals (cases hok; rfl)

/-- With only dead replicas, a write at `ANY` is accepted whatever the hint store does. -/
theorem OnlyDead.coordinateWrite_any (honly : OnlyDead c mutation) (ext : HintExternal E)
    (clock : Nat → HintClock) (s : HintStore E) :
    ∃ result, (c.coordinateWrite ext clock s mutation .any).2 = .ok result ∧
      result.acksReceived = 0 := by
  obtain ⟨hpreconditions, hguardrails, hnonempty, hdead⟩ := honly
  have hnoLive : (c.cluster.replicasFor mutation.partitionKey).filter c.cluster.isLive = [] :=
    filter_eq_nil_iff.2 fun replica hmem => by simp [hdead replica hmem]
  have hallDead : (c.cluster.replicasFor mutation.partitionKey).filter (! c.cluster.isLive ·) =
      c.cluster.replicasFor mutation.partitionKey :=
    filter_eq_self.2 fun replica hmem => by simp [hdead replica hmem]
  refine ⟨⟨0, 1, c.cluster.replicasFor mutation.partitionKey,
    (c.cluster.replicasFor mutation.partitionKey).length⟩, ?_, rfl⟩
  simp [coordinateWrite, hpreconditions, hguardrails,
    computeWritePlan, completeWritePlan, hnoLive, hallDead,
    hnonempty, ConsistencyLevel.blockFor, ConsistencyLevel.isSerial]

theorem OnlyDead.not_heldSomewhere (honly : OnlyDead c mutation) (hrejects : ¬ s.Admits) :
    ¬ HeldSomewhere ext clock c s mutation .any := by
  intro hheld
  obtain ⟨result, hok, hnoAcks⟩ := honly.coordinateWrite_any ext clock s
  rcases hheld result hok with hacked | ⟨hint, hstored, -⟩
  · omega
  · exact not_storedFor_of_not_admits hrejects _ 0 hstored

/-- An accepted write is held by a replica or by a hint just if hints are taken when the write is at
`ANY` and has only dead replicas. -/
theorem heldSomewhere_iff :
    HeldSomewhere ext clock c s mutation cl ↔ (cl = .any → OnlyDead c mutation → s.Admits) := by
  constructor
  · rintro hheld rfl honly
    by_contra hrejects
    exact honly.not_heldSomewhere hrejects hheld
  · intro hadmits result hok
    obtain ⟨hpreconditions, hguardrails, plan, hplanned, hcompleted, hstore⟩ :=
      coordinateWrite_eq_ok hok
    obtain ⟨hnonempty, hlive, hdeads, -, hother⟩ := computeWritePlan_eq_ok hplanned
    rw [acksReceived_of_completeWritePlan hcompleted]
    by_cases hacked : 0 < plan.liveReplicas.length
    · exact .inl hacked
    · right
      have hany : cl = .any := by
        by_contra hne
        exact hacked (hother hne)
      have hdead : ∀ replica ∈ c.cluster.replicasFor mutation.partitionKey,
          c.cluster.isLive replica = false := by
        rw [hlive, not_lt, Nat.le_zero, length_eq_zero_iff, filter_eq_nil_iff] at hacked
        exact fun replica hmem => Bool.eq_false_iff.2 (hacked replica hmem)
      have hsome : plan.deadReplicas ≠ [] := by
        rw [hdeads, filter_eq_self.2 fun replica hmem => by simp [hdead replica hmem]]
        exact hnonempty
      rw [hstore, ← hdeads]
      exact exists_storedFor_of_admits
        (hadmits hany ⟨hpreconditions, hguardrails, hnonempty, hdead⟩) hsome 0

/-- A coordinator that sees one replica, which is down. -/
def oneDown : WriteCoordinator Nat where
  cluster := ⟨fun _ => [1], fun _ => false⟩
  localEndpoint := 0
  isBootstrapping := false
  maxMutationSize := 1000
  availablePermits := 1024
  truncatingTables := []

/-- With hinted handoff disabled, a write at `ANY` is accepted and held nowhere. -/
theorem not_heldSomewhere_oneDown :
    ¬ HeldSomewhere ⟨toString, fun _ => none, fun _ => none⟩ (fun _ => ⟨0, 0, 0⟩) oneDown
      (.withConfig { enabled := false } none) (.simple "ks" "t" [1] [] 5) .any :=
  OnlyDead.not_heldSomewhere ⟨rfl, rfl, by decide, fun _ _ => rfl⟩
    fun hadmits => Bool.false_ne_true hadmits.enabled

end CassandraVerified.Coordinator
