import Fetech.Context

/-! One node under `_execute_node` (`fetech/executor.py`).

A node runs as an asyncio task. Between two of its awaits nothing else runs, so a
step of a `Task` is what it does from one await to the next: `Pc` lists the places
where it can be suspended. What the adapter, the ledger, the clock and the parent do
there is the `TaskEvent` of the step. A cancellation is requested by the parent
(`task.cancel()`) and thrown into the task when it is next resumed, wherever it is
then; the deadline of `asyncio.timeout` interrupts the adapter and its backoff only. -/
namespace Fetech.Executor

/-- The engine's surroundings: which adapters are registered, and the functions of
`fetech/security.py` whose text it stores. -/
structure Engine where
  codecs : Codecs
  registered : String → Bool
  sanitizeUrl : String → String
  sanitizeUrlForRequest : String → FetchRequest → String

/-- `_NodeExecution`. -/
structure NodeExecution where
  completed : Bool := false
  dependencyMissing : Bool := false
  policyBlocked : Bool := false
  budgetExhausted : Bool := false
  authRequired : Bool := false
  notFound : Bool := false
  failed : Bool := false
  stop : Bool := false
  deriving DecidableEq, Repr

/-- The exceptions `_execute_node` handles. An execution error carries the retry code
`_adapter_retry_code` finds for it; `value` is a `ValueError`. -/
inductive AdapterError where
  | budgetExhausted (message : String)
  | policyBlocked (reason : String) (decisions : List PolicyDecision)
  | dependency (message : String)
  | authExpired
  | authRequired
  | notFound (message : String)
  | timeout
  | execution (typeName message : String) (retryCode : Option String)
  | value (typeName message : String)
  deriving DecidableEq

/-! ### Bookkeeping on attempts and outcomes -/

/-- The last attempt marked as ended, if its status is one of those given. -/
def closeLast (open_ : AttemptStatus → Bool) (status : AttemptStatus) (failureCode : String)
    (attempts : List FetchAttempt) : List FetchAttempt :=
  match attempts.getLast? with
  | none => attempts
  | some a =>
    if open_ a.status then
      attempts.dropLast ++ [{a with status, finished := true, failureCode := some failureCode}]
    else attempts

def markRunningAttemptFailed (failureCode : String) (attempts : List FetchAttempt) : List FetchAttempt :=
  closeLast (· == .running) .failed failureCode attempts

def markRunningAttemptCancelled (failureCode : String) (attempts : List FetchAttempt) : List FetchAttempt :=
  closeLast (· == .running) .cancelled failureCode attempts

/-- An attempt of the executor's own when the node has none, else the last one closed. -/
def ensureDeadlineAttemptFailed (e : Engine) (ctx : ExecutionContext) (node : PlanNode) (attemptCount : Nat) :
    List FetchAttempt :=
  if ctx.attempts.length = attemptCount then
    ctx.attempts ++ [{
      capabilityId := node.capabilityId
      sanitizedDestination := e.sanitizeUrlForRequest ctx.request.target ctx.request
      status := .failed
      finished := true
      failureCode := some "budget_exhausted" }]
  else
    closeLast (fun s => s == .cancelled || s == .planned || s == .running) .failed "budget_exhausted" ctx.attempts

def ensureOutcome (ctx : ExecutionContext) (node : PlanNode) (outcomeCount : Nat) (status : OutcomeStatus)
    (details : List (String × Detail) := []) : ExecutionContext :=
  if (ctx.capabilityOutcomes.drop outcomeCount).any (·.capabilityId == node.capabilityId) then ctx
  else ctx.recordOutcome node.capabilityId status node.adapter details

/-- The error `_enforce_approval` raises, if it does. -/
def enforceApproval (e : Engine) (plan : FetchPlan) (node : PlanNode) : Option AdapterError :=
  let request := plan.request
  let legacyApproval := e.codecs.casefold
    (request.metadata.getD (node.capabilityId ++ "_approved") "").toList == "true".toList
  if !node.requiresApproval then none
  else if request.approvedCapabilities.contains node.capabilityId || legacyApproval then none
  else
    let reason := node.capabilityId ++ " requires explicit approval"
    some (.policyBlocked reason
      [{policyId := "capability_approval", allowed := false, reason
        destination := some (e.sanitizeUrl request.target)}])

/-- `_retry_code_allowed`. -/
def retryCodeAllowed (e : Engine) (code : String) (retryableCodes : List String) : Bool :=
  let fold s := e.codecs.casefold (String.toList s)
  let allowed := retryableCodes.map fold
  let normalized := fold code
  allowed.contains normalized ||
    (!normalized.isEmpty && normalized.all e.codecs.isDigit && normalized.head? == some '5' &&
      allowed.contains "5xx".toList)

/-- Whether `_with_retries` calls the adapter again after this error. -/
def retries (e : Engine) (retry : RetryRule) (retryIndex : Nat) : AdapterError → Bool
  | .execution _ _ (some code) => retryIndex < retry.maximum && retryCodeAllowed e code retry.retryableCodes
  | _ => false

/-! ### The exception handlers -/

/-- What a handler of `_execute_node` reports. -/
structure Report where
  failureCode : String
  diagnosticCode : String
  message : String
  outcome : OutcomeStatus
  reason : String
  eventType : String
  payload : List (String × Detail) := []
  result : NodeExecution

def AdapterError.report (node : PlanNode) : AdapterError → Report
  | .budgetExhausted message =>
    { failureCode := "budget_exhausted", diagnosticCode := "budget_exhausted", message
      outcome := .failed, reason := message, eventType := "attempt.budget_exhausted"
      result := {budgetExhausted := true, stop := true} }
  | .policyBlocked reason _ =>
    { failureCode := "policy", diagnosticCode := "policy_blocked", message := reason
      outcome := .blocked, reason, eventType := "attempt.blocked"
      result := {policyBlocked := true, stop := true} }
  | .dependency message =>
    { failureCode := "dependency_missing", diagnosticCode := "dependency_missing", message
      outcome := .dependencyMissing, reason := message, eventType := "attempt.unavailable"
      result := {dependencyMissing := true} }
  | .authExpired =>
    let message := "credential material is expired or was rejected as expired"
    { failureCode := "auth_expired", diagnosticCode := "auth_expired", message
      outcome := .failed, reason := message, eventType := "attempt.auth_expired"
      result := {authRequired := true, stop := true} }
  | .authRequired =>
    let message := "authentication is required or the supplied material was rejected"
    { failureCode := "auth_required", diagnosticCode := "auth_required", message
      outcome := .failed, reason := message, eventType := "attempt.auth_required"
      result := {authRequired := true, stop := true} }
  | .notFound message =>
    { failureCode := "not_found", diagnosticCode := "not_found", message
      outcome := .failed, reason := message, eventType := "attempt.not_found"
      result := {notFound := true, stop := true} }
  | .timeout =>
    { failureCode := "budget_exhausted", diagnosticCode := "budget_exhausted"
      message := node.id ++ " exhausted the deadline budget"
      outcome := .failed, reason := "deadline budget exhausted", eventType := "attempt.budget_exhausted"
      payload := [("code", .text "budget_exhausted")]
      result := {budgetExhausted := true, stop := true} }
  | .execution typeName message _ =>
    { failureCode := typeName, diagnosticCode := "adapter_failed", message
      outcome := .failed, reason := message, eventType := "attempt.failed"
      payload := [("code", .text typeName)]
      result := {failed := true} }
  | .value typeName message =>
    { failureCode := typeName, diagnosticCode := "adapter_failed", message
      outcome := .failed, reason := message, eventType := "attempt.failed"
      payload := [("code", .text typeName)]
      result := {failed := true} }

def AdapterError.decisions : AdapterError → List PolicyDecision
  | .policyBlocked _ decisions => decisions
  | _ => []

/-! ### Tasks -/

/-- How the `finally` block is left: with a value, with the `CancelledError`, or on to
the statements after the `try`. -/
inductive Exit where
  | returning (result : NodeExecution)
  | raising
  | continuing
  deriving DecidableEq, Repr

/-- Where a task is suspended. -/
inductive Pc where
  /-- Created and not yet run. -/
  | created
  /-- Writing `attempt.started`. -/
  | starting
  /-- Inside `adapter.execute`. -/
  | calling (retryIndex : Nat)
  /-- In the `asyncio.sleep` after a failed call. -/
  | backoff (retryIndex : Nat)
  /-- An exception handler writing its event. -/
  | handling (write : PendingEvent) (result : NodeExecution)
  /-- The `CancelledError` handler in its shielded write. -/
  | cancelHandling
  /-- The `finally` block writing pending event `i`. -/
  | flushing (i : Nat) (exit : Exit)
  /-- Writing `attempt.finished`. -/
  | finishing
  | done (result : NodeExecution)
  | cancelled
  deriving DecidableEq

/-- How the adapter's work ended, retries included. -/
inductive Fate where
  | unfinished
  | returned
  | raised (err : AdapterError)
  | interrupted
  deriving DecidableEq

/-- A task with the locals of `_execute_node`. `fate` and `callStart` (how many
attempts there were when the adapter was last called) are read by no step. -/
structure Task where
  node : PlanNode
  context : ExecutionContext
  pc : Pc := .created
  eventId : Nat := 0
  attemptCount : Nat := 0
  outcomeCount : Nat := 0
  runtimeEventCount : Nat := 0
  /-- `task.cancel()` was called and not yet thrown. -/
  cancelRequested : Bool := false
  /-- The parent's cancellation was thrown into the adapter. -/
  cancelDelivered : Bool := false
  /-- The deadline interrupted the adapter. -/
  expired : Bool := false
  fate : Fate := .unfinished
  callStart : Nat := 0

inductive TaskEvent where
  /-- What the task awaits is there: a ledger write, the end of the backoff. -/
  | resume
  | op (o : ContextOp)
  | returns
  | raises (err : AdapterError)
  /-- The deadline of the run passes. -/
  | expire
  /-- `CancelledError` leaves the adapter. -/
  | interrupted
  /-- The requested cancellation is thrown; a write under way may still have happened. -/
  | deliver (written : Bool)

/-- `_emit`. -/
def emit (ledger : List ProvenanceEvent) (ev : PendingEvent) (parents : List Nat) : List ProvenanceEvent :=
  ledger ++ [{eventId := ledger.length, eventType := ev.eventType, actor := ev.actor
              payload := ev.payload, parentEventIds := parents}]

namespace Task

/-- An event of the node itself. -/
def nodeEvent (t : Task) (eventType : String) (extra : List (String × Detail) := []) : PendingEvent :=
  {eventType, actor := t.node.adapter, payload := ("capability_id", .text t.node.capabilityId) :: extra}

/-- The end of the `finally` block. -/
def leave (t : Task) : Exit → Task
  | .returning r => {t with pc := .done r}
  | .raising => {t with pc := .cancelled}
  | .continuing => {t with context := ensureOutcome t.context t.node t.outcomeCount .applied, pc := .finishing}

/-- `_flush_pending_events` from event `i` on, then out of the `finally` block. -/
def flushFrom (t : Task) (i : Nat) (exit : Exit) : Task :=
  if i < t.context.pendingEvents.length then {t with pc := .flushing i exit} else t.leave exit

def flush (t : Task) (exit : Exit) : Task := t.flushFrom t.runtimeEventCount exit

/-- The attempts a handler leaves behind. -/
def handledAttempts (e : Engine) (t : Task) (err : AdapterError) : List FetchAttempt :=
  match err with
  | .timeout => ensureDeadlineAttemptFailed e t.context t.node t.attemptCount
  | _ => markRunningAttemptFailed (err.report t.node).failureCode t.context.attempts

/-- The context a handler leaves behind. -/
def handledContext (e : Engine) (t : Task) (err : AdapterError) : ExecutionContext :=
  let report := err.report t.node
  let ctx := {t.context with
    attempts := t.handledAttempts e err, policyDecisions := t.context.policyDecisions ++ err.decisions}
  ensureOutcome (ctx.diagnose report.diagnosticCode report.message) t.node t.outcomeCount report.outcome
    [("reason", .text report.reason)]

/-- The handler of an error, up to its ledger write. -/
def handle (e : Engine) (t : Task) (err : AdapterError) : Task :=
  let report := err.report t.node
  {t with
    context := t.handledContext e err
    pc := .handling (t.nodeEvent report.eventType report.payload) report.result
    fate := .raised err}

def cancellationKey : String := "_parallel_cancellation_reason"

/-- The parent's `task.cancel()`, with its reason left in the sensitive state. -/
def cancel (reason : String) (t : Task) : Task :=
  {t with
    cancelRequested := true
    context.sensitiveState := t.context.sensitiveState.set cancellationKey (.text reason)}

/-- `str(context.sensitive_state.pop(…))`. -/
def cancellationReason (ctx : ExecutionContext) : String :=
  match ctx.sensitiveState.get? cancellationKey with
  | some (.text s) => s
  | _ => "execution_cancelled"

/-- The context the `CancelledError` handler leaves behind. -/
def cancelledContext (t : Task) : ExecutionContext :=
  let reason := cancellationReason t.context
  let ctx := {t.context with
    sensitiveState := t.context.sensitiveState.erase cancellationKey
    attempts := markRunningAttemptCancelled reason t.context.attempts}
  ensureOutcome ctx t.node t.outcomeCount .notApplicable [("reason", .text reason)]

/-- The `CancelledError` handler, up to its ledger write. -/
def handleCancel (t : Task) : Task :=
  {t with context := t.cancelledContext, pc := .cancelHandling, fate := .interrupted}

/-- `CancelledError` out of `_with_retries`: the parent's, or else the deadline's,
which `asyncio.timeout` turns into a `TimeoutError`. -/
def interrupt (e : Engine) (t : Task) : Task :=
  if t.cancelDelivered then t.handleCancel else t.handle e .timeout

/-- The head of the retry loop. -/
def call (e : Engine) (t : Task) (retryIndex : Nat) : Task :=
  if t.context.request.budget.attempts ≤ t.context.attempts.length then
    t.handle e (.budgetExhausted "attempt budget exhausted")
  else {t with pc := .calling retryIndex, callStart := t.context.attempts.length}

/-- An error leaves the adapter. -/
def caught (e : Engine) (t : Task) (retryIndex : Nat) (err : AdapterError) : Task :=
  if retries e t.node.retry retryIndex err then
    if 0 < t.node.retry.backoffSeconds then {t with pc := .backoff retryIndex} else t.call e (retryIndex + 1)
  else t.handle e err

/-- The locals set once `attempt.started` is written. -/
def opened (eventId : Nat) (t : Task) : Task :=
  {t with
    eventId
    attemptCount := t.context.attempts.length
    outcomeCount := t.context.capabilityOutcomes.length
    runtimeEventCount := t.context.pendingEvents.length}

/-- The node starts with no time left. -/
def late (e : Engine) (t : Task) : Task :=
  {t with context.attempts := ensureDeadlineAttemptFailed e t.context t.node t.attemptCount}.handle e
    (.budgetExhausted "run deadline budget exhausted")

/-- The `try` block up to the adapter. -/
def admitted (e : Engine) (plan : FetchPlan) (elapsed : ℚ) (t : Task) : Task :=
  match enforceApproval e plan t.node with
  | some err => t.handle e err
  | none => if plan.request.budget.deadlineSeconds - elapsed ≤ 0 then t.late e else t.call e 0

/-- From the written `attempt.started` into the adapter. -/
def enter (e : Engine) (plan : FetchPlan) (elapsed : ℚ) (eventId : Nat) (t : Task) : Task :=
  (t.opened eventId).admitted e plan elapsed

/-- The first statements of `_execute_node`. -/
def start (e : Engine) (t : Task) : Task :=
  if e.registered t.node.adapter then {t with pc := .starting}
  else
    {t with
      context := (t.context.diagnose "adapter_missing" ("no adapter registered for " ++ t.node.adapter)).recordOutcome
        t.node.capabilityId .dependencyMissing t.node.adapter [("reason", .text "adapter is not registered")]
      pc := .done {dependencyMissing := true}}

/-- The payload of `attempt.finished` names the last artifact. -/
def finishedEvent (t : Task) : PendingEvent :=
  t.nodeEvent "attempt.finished"
    ((t.context.artifacts.getLast?.map fun a => ("artifact_id", Detail.int a.artifactId)).toList)

/-- The requested cancellation is thrown where the task is suspended. -/
def deliver (t : Task) : Option Task :=
  let t := {t with cancelRequested := false}
  match t.pc with
  | .created => some {t with pc := .cancelled}
  | .starting => some {t with pc := .cancelled}
  | .calling _ => some {t with cancelDelivered := true}
  | .backoff _ => some {t with cancelDelivered := true}.handleCancel
  | .handling _ _ => some (t.flush .raising)
  | .flushing _ _ => some {t with pc := .cancelled}
  | .finishing => some {t with pc := .cancelled}
  | .cancelHandling => none
  | .done _ => none
  | .cancelled => none

/-- The event a suspended task is writing, with its parents. `plan.started` is event 0. -/
def writing (t : Task) : Option (PendingEvent × List Nat) :=
  match t.pc with
  | .starting => some (t.nodeEvent "attempt.started", [0])
  | .handling write _ => some (write, [t.eventId])
  | .cancelHandling => some (t.nodeEvent "attempt.cancelled", [t.eventId])
  | .flushing i _ => (t.context.pendingEvents[i]?).map fun ev => (ev, [t.eventId])
  | .finishing => some (t.finishedEvent, [t.eventId])
  | _ => none

/-- What the step writes to the ledger. -/
def written (t : Task) : TaskEvent → Option (PendingEvent × List Nat)
  | .resume => t.writing
  | .deliver true => t.writing
  | _ => none

/-- One step of a task; `none` where the event cannot happen. The next free event id
is `eventId`. -/
def step (e : Engine) (plan : FetchPlan) (elapsed : ℚ) (eventId : Nat) (t : Task) (ev : TaskEvent) :
    Option Task :=
  match t.cancelRequested, ev, t.pc with
  -- until a requested cancellation is thrown, only what the adapter has started goes on
  | true, .deliver _, _ => t.deliver
  | _, .op o, .calling _ => some {t with context := o.apply t.context}
  | false, .resume, .created => some (t.start e)
  | false, .resume, .starting => some (t.enter e plan elapsed eventId)
  | false, .resume, .backoff k => some (t.call e (k + 1))
  | false, .resume, .handling _ r => some (t.flush (.returning r))
  | false, .resume, .cancelHandling => some (t.flush .raising)
  | false, .resume, .flushing i exit => some (t.flushFrom (i + 1) exit)
  | false, .resume, .finishing => some {t with pc := .done {completed := true}}
  | false, .returns, .calling _ => some ({t with fate := .returned}.flush .continuing)
  | false, .raises err, .calling k => some (t.caught e k err)
  | false, .expire, .calling _ =>
    if plan.request.budget.deadlineSeconds ≤ elapsed ∧ !t.expired then some {t with expired := true} else none
  | false, .expire, .backoff _ =>
    if plan.request.budget.deadlineSeconds ≤ elapsed then some (t.interrupt e) else none
  | false, .interrupted, .calling _ => if t.cancelDelivered || t.expired then some (t.interrupt e) else none
  | _, _, _ => none

end Task

end Fetech.Executor
