import CassandraVerified.Consensus.Router
import CassandraVerified.Paxos.Proofs.SystemProofs

/-!
# Conditions on every route

Paxos evaluates the condition on the row it reads before it proposes the mutation. Accord does not
evaluate it at all.
-/

namespace CassandraVerified.Consensus

open Storage (Bytes)
open Paxos (Uuid CasCall CasPhase Input Event Move PaxosReplica)
open Accord (AccordError AccordConfig AccordService CommandStore TxnId TxnPhase)
open RouterSystem

/-- What a step of a transaction can lead to. -/
inductive TxnMove (enabled : Bool) : TxnPhase → TxnPhase → Prop where
  | fail {phase e} : TxnMove enabled phase (.returned (.error e))
  | name {txnId} (h : enabled = true) : TxnMove enabled .start (.named txnId)
  | preAccept {txnId executeAt} : TxnMove enabled (.named txnId) (.preAccepted txnId executeAt)
  | accept {txnId executeAt resolved} :
    TxnMove enabled (.preAccepted txnId executeAt) (.accepted txnId resolved)
  | commit {txnId executeAt} : TxnMove enabled (.accepted txnId executeAt) (.committed txnId)
  | apply {txnId} : TxnMove enabled (.committed txnId) (.returned (.ok ()))
  | stay {result} : TxnMove enabled (.returned result) (.returned result)

theorem advance_spec (a : AccordService) (result : Except AccordError CommandStore)
    (txnId : TxnId) (status : Accord.CommandStatus) (executeAt : Int64) {phase next : TxnPhase}
    (hnext : TxnMove a.config.enabled phase next) :
    TxnMove a.config.enabled phase (a.advance result txnId status executeAt next).1 ∧
      (a.advance result txnId status executeAt next).2.config = a.config := by
  cases result with
  | error e => exact ⟨.fail, rfl⟩
  | ok store => exact ⟨hnext, rfl⟩

attribute [local simp] AccordService.executeTransaction

theorem executeTransaction_spec (a : AccordService) (keyspace : String) (mutations : List Bytes)
    (clock : Int64) (phase : TxnPhase) :
    TxnMove a.config.enabled phase (a.executeTransaction keyspace mutations clock phase).1 ∧
      (a.executeTransaction keyspace mutations clock phase).2.config = a.config := by
  cases phase with
  | start =>
    cases henabled : a.config.enabled with
    | true => simpa [henabled] using .name rfl
    | false => simpa [henabled] using .fail
  | named txnId => exact advance_spec a _ _ _ _ .preAccept
  | preAccepted txnId executeAt =>
    simp only [AccordService.executeTransaction]
    split
    · exact ⟨.fail, rfl⟩
    · exact advance_spec a _ _ _ _ .accept
  | accepted txnId executeAt => exact advance_spec a _ _ _ _ .commit
  | committed txnId =>
    simp only [AccordService.executeTransaction, AccordService.execute]
    split
    · exact ⟨.fail, rfl⟩
    · split
      · exact ⟨.fail, rfl⟩
      · exact advance_spec a _ _ _ _ .apply
  | returned result => exact ⟨.stay, rfl⟩

/-- The call works on its own mutation, or has succeeded with it. -/
def Own : CasPhase → Prop
  | .proposing _ _ adopted _ => adopted = false
  | .committing _ _ adopted _ => adopted = false
  | .returned result => result = .success
  | _ => False

section

variable {call : CasCall} {input : Input} {R R' : Nat → PaxosReplica} {before phase : CasPhase}
  {events : List Event}

theorem own_of_move (h : Move call input R before phase R' events) (hown : Own phase) :
    Own before ∨ (∃ attempts ballot, before = .reading attempts ballot) ∧
      call.condition input.row = true := by
  cases h with
  | met hcondition => exact .inr ⟨⟨_, _, rfl⟩, hcondition⟩
  | propose _ => exact .inl hown
  | chosen _ _ => exact .inl hown
  | commit _ => exact .inl hown
  | succeed _ => exact .inl rfl
  | stay => exact .inl hown
  | _ => simp [Own] at hown

theorem condition_of_proposed (h : Move call input R before phase R' events) {p : Paxos.Proposal}
    (hp : .proposed p none ∈ events) :
    (∃ attempts ballot, before = .reading attempts ballot) ∧ call.condition input.row = true := by
  cases h with
  | met hcondition => exact ⟨⟨_, _, rfl⟩, hcondition⟩
  | propose _ => split at hp <;> simp at hp
  | _ => simp at hp

end

theorem RouterCall.executeCas_cases (call : RouterCall) :
    call.executeCas = .returned (.error .transactionsDisabled) ∨ call.executeCas = .paxos ∨
      call.executeCas = .accord .start ∧ call.ToAccord := by
  unfold executeCas executeCasMixed ToAccord
  cases call.mode <;> simp
  split <;> simp_all

theorem RouterCall.executeCas_of_toAccord {call : RouterCall} (h : call.ToAccord) :
    call.executeCas = .accord .start := by
  rcases h with h | ⟨h, hkey⟩
  · simp [executeCas, h]
  · simp [executeCas, h, executeCasMixed, hkey]

/-- The condition held for the last of the rows. -/
def LastMet (call : RouterCall) (rows : List (Option Bytes)) : Prop :=
  ∃ row, rows.getLast? = some row ∧ call.cas.condition row = true

/-- What holds of a call on its way, by its phases, the rows and whether it has proposed its
mutation. -/
structure CallInv (call : RouterCall) (config : AccordConfig) (phase : RouterPhase)
    (cas : CasPhase) (rows : List (Option Bytes)) (proposed : Prop) : Prop where
  accord : ∀ txn, phase = .accord txn →
    call.ToAccord ∧ (txn = .start ∨ config.enabled = true) ∧ ∀ r, txn ≠ .returned r
  own : Own cas → LastMet call rows
  success : phase = .returned (.ok .success) → LastMet call rows
  proposed : proposed → ∃ row ∈ rows, call.cas.condition row = true

namespace CallInv

variable {call : RouterCall} {config : AccordConfig} {phase : RouterPhase} {cas : CasPhase}
  {rows : List (Option Bytes)} {proposed : Prop}

theorem executeCas (h : CallInv call config phase cas rows proposed) :
    CallInv call config call.executeCas cas rows proposed := by
  constructor
  case accord =>
    intro txn htxn
    rcases call.executeCas_cases with hoff | hpaxos | ⟨haccord, hto⟩
    · simp [hoff] at htxn
    · simp [hpaxos] at htxn
    · obtain rfl : TxnPhase.start = txn := by simpa [haccord] using htxn
      exact ⟨hto, .inl rfl, nofun⟩
  case own => exact h.own
  case success =>
    intro hsuccess
    rcases call.executeCas_cases with heq | heq | ⟨heq, -⟩ <;> simp [heq] at hsuccess
  case proposed => exact h.proposed

/-- A step of Paxos. The rows grow only at a read, and then the last one is the row that was
read. -/
theorem paxos (h : CallInv call config phase cas rows proposed) {input : Input}
    {R R' : Nat → PaxosReplica} {cas' : CasPhase} {events : List Event}
    (hmove : Move call.cas input R cas cas' R' events) :
    CallInv call config (paxosPhase cas') cas'
      (rows ++ rowRead input cas) (proposed ∨ ∃ p, .proposed p none ∈ events) := by
  have hread (hreading : ∃ attempts ballot, cas = .reading attempts ballot)
      (hcondition : call.cas.condition input.row = true) :
      LastMet call (rows ++ rowRead input cas) := by
    obtain ⟨attempts, ballot, rfl⟩ := hreading
    exact ⟨input.row, by simp [rowRead], hcondition⟩
  have hown (hown : Own cas') : LastMet call (rows ++ rowRead input cas) := by
    rcases own_of_move hmove hown with hbefore | ⟨hreading, hcondition⟩
    · have hnone : rowRead input cas = [] := by
        cases cas with
        | reading attempts ballot => exact hbefore.elim
        | _ => rfl
      rw [hnone, List.append_nil]
      exact h.own hbefore
    · exact hread hreading hcondition
  constructor
  case accord =>
    intro txn htxn
    cases cas' <;> cases htxn
  case own => exact hown
  case success =>
    intro hsuccess
    refine hown ?_
    cases cas' <;> cases hsuccess
    rfl
  case proposed =>
    rintro (hp | ⟨p, hp⟩)
    · obtain ⟨row, hrow, hcondition⟩ := h.proposed hp
      exact ⟨row, List.mem_append_left _ hrow, hcondition⟩
    · obtain ⟨hreading, hcondition⟩ := condition_of_proposed hmove hp
      obtain ⟨row, hrow, hcondition⟩ := hread hreading hcondition
      exact ⟨row, List.mem_of_getLast? hrow, hcondition⟩

/-- A step of Accord, where the condition is met by every row. -/
theorem accord_step {txn txn' : TxnPhase} (h : CallInv call config (.accord txn) cas rows proposed)
    (hsafe : call.ToAccord → config.enabled = true → ∀ row, call.cas.condition row = true)
    {input : Input} (hmove : TxnMove config.enabled txn txn') :
    CallInv call config (accordPhase txn') cas (rows ++ rowApplied input txn) proposed := by
  obtain ⟨hto, henabled, hnot⟩ := h.accord txn rfl
  have happlied (txnId : TxnId) (heq : txn = .committed txnId) :
      LastMet call (rows ++ rowApplied input txn) := by
    subst heq
    exact ⟨input.row, by simp [rowApplied], hsafe hto (henabled.resolve_left nofun) _⟩
  constructor
  case accord =>
    intro txn'' htxn
    cases hmove with
    | fail => cases htxn
    | name htrue => cases htxn; exact ⟨hto, .inr htrue, nofun⟩
    | preAccept | accept | commit =>
      cases htxn
      exact ⟨hto, .inr (henabled.resolve_left nofun), nofun⟩
    | apply => cases htxn
    | stay => exact absurd rfl (hnot _)
  case own =>
    intro hown
    cases txn with
    | committed txnId => exact happlied txnId rfl
    | _ => simpa [rowApplied] using h.own hown
  case success =>
    intro hsuccess
    cases hmove with
    | @apply txnId => exact happlied txnId rfl
    | stay => exact absurd rfl (hnot _)
    | _ => cases hsuccess
  case proposed =>
    intro hp
    obtain ⟨row, hrow, hcondition⟩ := h.proposed hp
    exact ⟨row, List.mem_append_left _ hrow, hcondition⟩

end CallInv

/-- Call `i` on its way through the system. -/
def RouterInv (calls : Nat → RouterCall) (config : AccordConfig) (i : Nat) (s : RouterSystem) :
    Prop :=
  s.accord.config = config ∧ CallInv (calls i) config (s.phases i) (s.paxos.phases i) (s.rows i)
      (∃ p, (i, .proposed p none) ∈ s.paxos.trace)

section

variable {calls : Nat → RouterCall} {config : AccordConfig} {nodeId : Uuid} {i : Nat}

theorem RouterInv.step {s : RouterSystem} (h : RouterInv calls config i s)
    (hsafe : (calls i).ToAccord → config.enabled = true → ∀ row, (calls i).cas.condition row = true)
    (j : Nat) (input : Input) : RouterInv calls config i (s.step calls (j, input)) := by
  obtain ⟨hconfig, hcall⟩ := h
  by_cases hij : i = j
  · subst hij
    cases hphase : s.phases i with
    | start =>
      simp only [RouterSystem.step, hphase]
      exact ⟨hconfig, by simpa using hcall.executeCas⟩
    | paxos =>
      obtain ⟨cas', replicas, events, hmove, heq⟩ :=
        s.paxos.step_move (fun j => (calls j).cas) i input
      simp only [RouterSystem.step, hphase, heq]
      refine ⟨hconfig, ?_⟩
      have hstep := hcall.paxos hmove
      simpa [or_and_right, exists_or] using hstep
    | accord txn =>
      obtain ⟨hmove, hconfig'⟩ := executeTransaction_spec s.accord (calls i).cas.keyspace
        [(calls i).cas.mutation] input.clock txn
      simp only [RouterSystem.step, hphase]
      rw [hphase] at hcall
      rw [hconfig] at hmove
      exact ⟨hconfig'.trans hconfig, by simpa using hcall.accord_step hsafe hmove⟩
    | returned r =>
      simp only [RouterSystem.step, hphase]
      exact ⟨hconfig, by rwa [hphase] at hcall ⊢⟩
  · cases hphase : s.phases j with
    | start =>
      simp only [RouterSystem.step, hphase]
      exact ⟨hconfig, by simpa [Function.update_of_ne hij] using hcall⟩
    | paxos =>
      obtain ⟨cas', replicas, events, -, heq⟩ := s.paxos.step_move (fun j => (calls j).cas) j input
      simp only [RouterSystem.step, hphase, heq]
      refine ⟨hconfig, ?_⟩
      have htrace (e : Event) :
          (i, e) ∈ (s.paxos.after j cas' replicas events).trace ↔ (i, e) ∈ s.paxos.trace := by
        rw [Paxos.System.mem_trace_after]
        simp [hij]
      simpa only [Function.update_of_ne hij, Paxos.System.after_phases_of_ne hij,
        htrace] using hcall
    | accord txn =>
      have hconfig' := (executeTransaction_spec s.accord (calls j).cas.keyspace
        [(calls j).cas.mutation] input.clock txn).2
      simp only [RouterSystem.step, hphase]
      exact ⟨hconfig'.trans hconfig, by simpa [Function.update_of_ne hij] using hcall⟩
    | returned r =>
      simp only [RouterSystem.step, hphase]
      exact ⟨hconfig, hcall⟩

theorem routerInv_run (hsafe : (calls i).ToAccord → config.enabled = true →
      ∀ row, (calls i).cas.condition row = true) (steps : List (Nat × Input)) :
    RouterInv calls config i (run calls config nodeId steps) := by
  induction steps using List.reverseRecOn with
  | nil =>
    refine ⟨rfl, ?_⟩
    constructor <;> simp [run, new, Paxos.System.new, Own]
  | append_singleton steps step ih =>
    rw [run, List.foldl_concat]
    exact ih.step hsafe step.1 step.2

/-- The six steps of a call on the route of Accord; the current row is `row` when its mutation is
applied. -/
def accordSteps (i : Nat) (row : Option Bytes) : List (Nat × Input) :=
  List.replicate 5 (i, ⟨0, none⟩) ++ [(i, ⟨0, row⟩)]

theorem run_accordSteps (hto : (calls i).ToAccord) (henabled : config.enabled = true)
    (row : Option Bytes) :
    (run calls config nodeId (accordSteps i row)).phases i = .returned (.ok .success) ∧
      (run calls config nodeId (accordSteps i row)).rows i = [row] := by
  simp [run, accordSteps, List.replicate, step, new,
    RouterCall.executeCas_of_toAccord hto, AccordService.new, henabled, AccordService.advance,
    CommandStore.preAccept, CommandStore.new, CommandStore.insert,
    CommandStore.acceptResolvingConflicts, CommandStore.get, CommandStore.accept,
    CommandStore.transition, CommandStore.commit, CommandStore.apply, AccordService.execute,
    accordPhase, rowApplied, Except.map]

/-- The condition of a call is respected in every run exactly if the call does not go to Accord,
Accord is disabled or the condition always holds. -/
theorem guarded_iff_not_toAccord (calls : Nat → RouterCall) (config : AccordConfig) (nodeId : Uuid)
    (i : Nat) :
    (∀ steps, (run calls config nodeId steps).Guarded calls i) ↔
      ¬(calls i).ToAccord ∨ config.enabled = false ∨ ∀ row, (calls i).cas.condition row = true := by
  constructor
  · intro h
    by_contra hcon
    push Not at hcon
    obtain ⟨hto, henabled, row, hrow⟩ := hcon
    obtain ⟨hphase, hrows⟩ := @run_accordSteps calls config nodeId i hto (by simpa using henabled) row
    obtain ⟨last, hlast, hcondition⟩ := (h (accordSteps i row)).success hphase
    rw [hrows] at hlast
    cases hlast
    exact hrow hcondition
  · intro h steps
    have hsafe (hto : (calls i).ToAccord) (henabled : config.enabled = true) :
        ∀ row, (calls i).cas.condition row = true := by
      rcases h with h | h | h
      · exact absurd hto h
      · simp [henabled] at h
      · exact h
    obtain ⟨-, hcall⟩ := @routerInv_run calls config nodeId i hsafe steps
    exact ⟨hcall.success, fun p hp => hcall.proposed ⟨p, hp⟩⟩

end

/-- `INSERT … IF NOT EXISTS` on a table in the mode of Accord. -/
def insertIfNotExists : RouterCall where
  mode := .accord
  migrationStates _ := none
  cas := ⟨⟨1, [0], 1, 10⟩, "ks", "t", [0], [7], Option.isNone⟩

/-- The insert succeeds although the row exists. -/
theorem not_guarded_insertIfNotExists :
    ¬∀ steps, (run (fun _ => insertIfNotExists) ⟨true, true⟩ 1 steps).Guarded
      (fun _ => insertIfNotExists) 0 := by
  intro h
  obtain ⟨hphase, hrows⟩ := @run_accordSteps (fun _ => insertIfNotExists) ⟨true, true⟩ 1 0 (.inl rfl) rfl
    (some [1])
  obtain ⟨last, hlast, hcondition⟩ := (h (accordSteps 0 (some [1]))).success hphase
  rw [hrows] at hlast
  cases hlast
  cases hcondition

end CassandraVerified.Consensus
