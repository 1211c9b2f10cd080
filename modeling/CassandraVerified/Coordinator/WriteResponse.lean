import CassandraVerified.Coordinator.Write

/-!
# Collecting write responses

`WriteResponseHandler` of `write_response_handler.rs`. A step is one event, the deadline, or one
piece of `await_completion` between two points at which other tasks may come in. `notify_waiters`
wakes only a waiter that has already asked to be notified. When the waiting task is polled,
`tokio::time::timeout` looks at the notification first and then at the deadline.
-/

namespace CassandraVerified.Coordinator

variable {E : Type}

/-- Why a replica failed. -/
inductive RequestFailureReason where
  | unknown
  | tooManyTombstones
  | overloaded
  | indexNotAvailable
deriving Repr, DecidableEq

def RequestFailureReason.code : RequestFailureReason → Nat
  | unknown => 0x0000
  | tooManyTombstones => 0x0001
  | overloaded => 0x0002
  | indexNotAvailable => 0x0003

/-- What a handler is made with. -/
structure HandlerConfig (E : Type) where
  cl : ConsistencyLevel
  writeType : WriteType
  required : Nat
  contacted : List E

/-- What the handler has counted. -/
structure Handler (E : Type) where
  acksReceived : Nat
  /-- Endpoints that reported a failure, each with its last reason. -/
  failures : List (E × RequestFailureReason)
  hintsStored : Nat

namespace Handler

def new : Handler E := ⟨0, [], 0⟩

variable (config : HandlerConfig E)

def isClMet (h : Handler E) : Bool :=
  if config.cl = .any then h.acksReceived + h.hintsStored > 0
  else h.acksReceived ≥ config.required

/-- Too few replicas are left that have neither acknowledged nor failed. -/
def isClImpossible (h : Handler E) : Bool :=
  let remaining := config.contacted.length - (h.acksReceived + h.failures.length)
  h.acksReceived + remaining < config.required

/-- Counts an acknowledgement, whoever sent it, and says whether to notify. -/
def onResponse (h : Handler E) (_sender : E) : Handler E × Bool :=
  ({ h with acksReceived := h.acksReceived + 1 }, h.acksReceived + 1 ≥ config.required)

def onFailure [DecidableEq E] (h : Handler E) (sender : E) (reason : RequestFailureReason) :
    Handler E × Bool :=
  let h' := { h with failures := (sender, reason) :: h.failures.filter (·.1 ≠ sender) }
  (h', h'.isClImpossible config)

def onHintStored (h : Handler E) : Handler E := { h with hintsStored := h.hintsStored + 1 }

end Handler

/-- Where `await_completion` stands. -/
inductive AwaitPhase (E : Type) where
  /-- Called, and about to compare the clock with the deadline. -/
  | start
  /-- About to take the fast path if the level is met. -/
  | fastPath
  /-- At the head of the loop. -/
  | loopHead
  /-- The level was not met; about to see whether it still can be. -/
  | notMet
  /-- Neither; about to ask for a notification. -/
  | looked
  /-- Not notified when polled, and about to look at the deadline. A notification may have arrived
  since. -/
  | polled (notified : Bool)
  /-- Asked for a notification, and about to be polled. -/
  | waiting (notified : Bool)
  /-- Out of the loop. -/
  | left
  /-- Returned, when the replicas in `acked` had acknowledged. -/
  | decided (outcome : Except (WriteError E) (WriteResult E)) (acked : List E)

def AwaitPhase.notify : AwaitPhase E → AwaitPhase E
  | polled _ => polled true
  | waiting _ => waiting true
  | phase => phase

/-- The handler and the call that waits for it. -/
structure AwaitState (E : Type) where
  handler : Handler E
  phase : AwaitPhase E
  timeUp : Bool
  acked : List E

def AwaitState.new : AwaitState E := ⟨.new, .start, false, []⟩

/-- The reports of replicas, the deadline, and steps of the call. -/
inductive AwaitStep (E : Type) where
  | response (sender : E)
  | failure (sender : E) (reason : RequestFailureReason)
  | hintStored
  | deadline
  | advance

namespace AwaitState

variable (config : HandlerConfig E)

def decide (s : AwaitState E) (outcome : Except (WriteError E) (WriteResult E)) : AwaitState E :=
  { s with phase := .decided outcome s.acked }

def makeResult (s : AwaitState E) : AwaitState E := s.decide (.ok
    ⟨s.handler.acksReceived, config.required, config.contacted, s.handler.hintsStored⟩)

def makeTimeoutError (s : AwaitState E) : AwaitState E :=
  s.decide (.error (.timeout config.cl config.writeType config.required s.handler.acksReceived
    config.required))

def makeFailureError (s : AwaitState E) : AwaitState E :=
  s.decide (.error (.writeFailure config.cl config.writeType config.required
    s.handler.acksReceived config.required s.handler.failures.length
    (s.handler.failures.map fun f => (f.1, f.2.code))))

/-- The next piece of `await_completion`. -/
def advance (s : AwaitState E) : AwaitState E :=
  match s.phase with
  | .start => if s.timeUp then s.makeTimeoutError config else { s with phase := .fastPath }
  | .fastPath =>
    if s.handler.isClMet config then s.makeResult config else { s with phase := .loopHead }
  | .loopHead =>
    if s.handler.isClMet config then { s with phase := .left } else { s with phase := .notMet }
  | .notMet =>
    if s.handler.isClImpossible config then { s with phase := .left }
    else { s with phase := .looked }
  | .looked => { s with phase := .waiting false }
  | .polled notified =>
    if s.timeUp then s.makeTimeoutError config else { s with phase := .waiting notified }
  | .waiting notified =>
    if notified then { s with phase := .loopHead } else { s with phase := .polled false }
  | .left => if s.handler.isClMet config then s.makeResult config else s.makeFailureError config
  | .decided _ _ => s

def record (s : AwaitState E) (update : Handler E × Bool) : AwaitState E :=
  { s with handler := update.1, phase := if update.2 then s.phase.notify else s.phase }

def step [DecidableEq E] (s : AwaitState E) : AwaitStep E → AwaitState E
  | .response sender =>
    { s.record (s.handler.onResponse config sender) with acked := s.acked ++ [sender] }
  | .failure sender reason => s.record (s.handler.onFailure config sender reason)
  | .hintStored => { s with handler := s.handler.onHintStored }
  | .deadline => { s with timeUp := true }
  | .advance => s.advance config

def run [DecidableEq E] (s : AwaitState E) (steps : List (AwaitStep E)) : AwaitState E :=
  steps.foldl (step config) s

end AwaitState

variable [DecidableEq E]

/-- Success means that enough different replicas had acknowledged, and a timeout that they had
not. -/
def OutcomeSound (config : HandlerConfig E) : AwaitPhase E → Prop
  | .decided (.ok _) acked => config.required ≤ acked.toFinset.card
  | .decided (.error (.timeout ..)) acked => acked.toFinset.card < config.required
  | _ => True

/-- `await_completion` has looked at the counter, and will not look again before it waits or gives
up. -/
def AwaitPhase.Committed : AwaitPhase E → Prop
  | .notMet | .looked | .polled _ => True
  | _ => False

/-- No replica acknowledges again, no acknowledgement completes the required number behind the back
of `await_completion`, which is not called after its deadline with the number complete, and no hint
counts as an acknowledgement. -/
def OrderlyStep (config : HandlerConfig E) (s : AwaitState E) : AwaitStep E → Prop
  | .response sender =>
    sender ∉ s.acked ∧ (s.phase.Committed → s.acked.length + 1 < config.required)
  | .hintStored => config.cl ≠ .any
  | .advance => s.phase = .start → s.timeUp = true → s.acked.length < config.required
  | _ => True

def Orderly (config : HandlerConfig E) (s : AwaitState E) : List (AwaitStep E) → Prop
  | [] => True
  | step :: steps => OrderlyStep config s step ∧ Orderly config (s.step config step) steps

/-- The acknowledgements that each datacenter needs, and the datacenter of each replica. -/
structure DcConfig (E : Type) where
  dcRequired : List (String × Nat)
  endpointDc : List (E × String)
  nodup : (endpointDc.map Prod.fst).Nodup

/-- A report of a replica. -/
structure DcReport (E : Type) where
  sender : E
  acked : Bool
deriving Repr, DecidableEq

namespace DcConfig

variable (config : DcConfig E)

def dcOf (e : E) : String := (config.endpointDc.lookup e).getD "unknown"

omit [DecidableEq E] in
def replicas (dc : String) : List E := (config.endpointDc.filter (·.2 = dc)).map Prod.fst

/-- Every replica reports at most once, and no one else does. -/
structure Once (reports : List (DcReport E)) : Prop where
  nodup : (reports.map (·.sender)).Nodup
  known : ∀ r ∈ reports, r.sender ∈ config.endpointDc.map Prod.fst

/-- In every datacenter, as many replicas as required have acknowledged. -/
def Arrived (reports : List (DcReport E)) : Prop :=
  ∀ x ∈ config.dcRequired, x.2 ≤ (config.replicas x.1).countP (⟨·, true⟩ ∈ reports)

end DcConfig

/-- The counters of a `DatacenterWriteResponseHandler`. -/
structure DcHandler where
  dcAcks : String → Nat
  dcFailures : String → Nat

namespace DcHandler

/-- `new_dc_aware` -/
def new : DcHandler := ⟨fun _ => 0, fun _ => 0⟩

variable (config : DcConfig E)

def onResponseFromDc (h : DcHandler) (sender : E) : DcHandler :=
  let dc := config.dcOf sender
  { h with dcAcks := Function.update h.dcAcks dc (h.dcAcks dc + 1) }

def onFailureFromDc (h : DcHandler) (sender : E) : DcHandler :=
  let dc := config.dcOf sender
  { h with dcFailures := Function.update h.dcFailures dc (h.dcFailures dc + 1) }

def run (reports : List (DcReport E)) : DcHandler := reports.foldl (fun h r =>
    if r.acked then h.onResponseFromDc config r.sender else h.onFailureFromDc config r.sender) new

omit [DecidableEq E] in
def isDcClMet (h : DcHandler) : Bool := config.dcRequired.all fun x => !(h.dcAcks x.1 < x.2)

omit [DecidableEq E] in
def isDcClImpossible (h : DcHandler) : Bool := config.dcRequired.any fun x =>
    let got := h.dcAcks x.1
    let dcTotal := (config.endpointDc.map Prod.snd).countP (· = x.1)
    let remaining := dcTotal - (got + h.dcFailures x.1)
    got + remaining < x.2

end DcHandler

end CassandraVerified.Coordinator
