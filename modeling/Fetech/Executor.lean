import Fetech.Executor.Parallel
import Fetech.Lib.Runs

/-! The run of a plan (`ExecutionEngine.execute` in `fetech/executor.py`).

The state is what the coroutine of `execute` holds, with the task or the batch it is
waiting for. Every order in which the tasks, their adapters, the ledger and the clock
can move is a list of `Action`s; the executor's own statements between two awaits are
one action. -/
namespace Fetech.Executor

/-! ### Batches -/

structure Branch where
  task : Task
  result : Option NodeExecution := none

/-- `_execute_parallel_batch` while it waits: for the first branches to end, or, once
it has cancelled the losers, for all of them. -/
structure Batch where
  baseline : ContextLengths
  branches : List Branch
  cancelling : Bool := false

/-- `task.result()` of a task that returned. -/
def Task.result? (t : Task) : Option NodeExecution :=
  match t.pc with
  | .done r => some r
  | _ => none

/-- `task.done()`. -/
def Task.ended (t : Task) : Bool :=
  match t.pc with
  | .done _ => true
  | .cancelled => true
  | _ => false

namespace Branch

/-- In the `done` set of `asyncio.wait`: it ended and its result was not yet taken. -/
def arrived (b : Branch) : Bool := b.result.isNone && b.task.result?.isSome

def collect (b : Branch) : Branch := {b with result := b.result.or b.task.result?}

/-- The branch when a winner or a stopping branch was collected: cancelled if it is
still pending. -/
def settle (reason : String) (b : Branch) : Branch :=
  if b.collect.result.isNone then {b.collect with task := b.task.cancel reason} else b.collect

/-- The branch is a winner: it completed with the batch's first accepted artifact. -/
def acceptedWinner (baseline : ContextLengths) (b : Branch) : Bool :=
  b.arrived && b.task.result?.any (·.completed) && b.task.node.stopOnAcceptance && !baseline.accepted &&
    b.task.context.accepted

def stops (b : Branch) : Bool := b.arrived && b.task.result?.any (·.stop)

/-- What the batch reports of the branch: a cancelled task counts as completed. -/
def outcome (b : Branch) : NodeExecution :=
  b.result.getD (b.task.result?.getD {completed := true})

end Branch

namespace Batch

/-- The tasks are created; none has run. -/
def start (ctx : ExecutionContext) (nodes : List PlanNode) (contexts : List ExecutionContext) : Batch where
  baseline := .capture ctx
  branches := (nodes.zip contexts).map fun p => {task := {node := p.1, context := p.2}}

/-- A winner is among the branches that arrived. -/
def hasWinner (b : Batch) : Bool := b.branches.any (Branch.acceptedWinner b.baseline)

/-- A winner or a branch that stops the run arrived: the others are cancelled. -/
def cancelsLosers (b : Batch) : Bool := b.hasWinner || b.branches.any Branch.stops

/-- `asyncio.wait` returns: results are taken, and when a winner or a stopping branch
is among them, whatever is still pending is cancelled. -/
def collect (b : Batch) : Option Batch :=
  if b.cancelling || !b.branches.any Branch.arrived then none
  else
    let reason := if b.hasWinner then "early_stop" else "parallel_sibling_stopped_execution"
    if b.cancelsLosers && b.branches.any (·.collect.result.isNone) then
      some {b with branches := b.branches.map (Branch.settle reason), cancelling := true}
    else some {b with branches := b.branches.map Branch.collect}

/-- Every result is there, or every cancelled loser has ended. -/
def finished (b : Batch) : Bool :=
  b.branches.all fun br => br.result.isSome || (b.cancelling && br.task.ended)

end Batch

/-! ### The loop of `execute` -/

inductive Phase where
  | looping
  | single (t : Task)
  | batch (b : Batch)
  | returned (r : FetchResult)
  /-- The final validation rejects these fields of the remaining budget. -/
  | raised (fields : List String)

/-- The task of a node that runs alone. -/
def Phase.single? : Phase → Option Task
  | .single t => some t
  | _ => none

def Phase.isLooping : Phase → Bool
  | .looping => true
  | _ => false

def Phase.batch? : Phase → Option Batch
  | .batch b => some b
  | _ => none

theorem Phase.eq_of_batch? {p : Phase} {b : Batch} (h : p.batch? = some b) : p = .batch b := by
  unfold batch? at h
  split at h
  · cases h
    rfl
  · cases h

/-- The locals of `execute` its loop works on. -/
structure Locals where
  context : ExecutionContext
  completed : List String := []
  /-- The six flags of `execute`, joined. -/
  flags : NodeExecution := {}
  nodeIndex : Nat := 0
  /-- The loop was left with `break`. -/
  stopped : Bool := false

structure State where
  locals : Locals
  /-- `monotonic() - execution_started`. -/
  elapsed : ℚ := 0
  ledger : List ProvenanceEvent
  phase : Phase := .looping

inductive Action where
  /-- Time passes. -/
  | tick (seconds : ℚ)
  /-- `execute` goes on to its next await. -/
  | advance
  /-- A step of the node executed alone. -/
  | node (ev : TaskEvent)
  /-- A step of branch `i`. -/
  | branch (i : Nat) (ev : TaskEvent)
  /-- `asyncio.wait` returns in the batch. -/
  | collect
  /-- `_execute_parallel_batch` returns and the branches are merged. -/
  | join

/-- `dependency_missing = dependency_missing or result.dependency_missing`, and so on. -/
def NodeExecution.join (flags r : NodeExecution) : NodeExecution :=
  {flags with
    dependencyMissing := flags.dependencyMissing || r.dependencyMissing
    policyBlocked := flags.policyBlocked || r.policyBlocked
    budgetExhausted := flags.budgetExhausted || r.budgetExhausted
    authRequired := flags.authRequired || r.authRequired
    notFound := flags.notFound || r.notFound
    failed := flags.failed || r.failed}

/-- `_status`. -/
def status (ctx : ExecutionContext) (flags : NodeExecution) : ResultStatus :=
  if ctx.accepted then
    if flags.failed || flags.dependencyMissing || flags.budgetExhausted || flags.authRequired ||
      flags.policyBlocked || flags.notFound then .partialResult else .succeeded
  else if flags.policyBlocked then .blockedByPolicy
  else if flags.authRequired then .authRequired
  else if flags.notFound then .notFound
  else if flags.budgetExhausted then .budgetExhausted
  else if !ctx.artifacts.isEmpty then
    if flags.failed || flags.dependencyMissing then .partialResult else .lowQuality
  else if flags.dependencyMissing then .dependencyMissing
  else .failed

/-- `_remaining_budget`: an unvalidated copy of the request's budget. -/
def remainingBudget (plan : FetchPlan) (ctx : ExecutionContext) (elapsed : ℚ) : ResourceBudget :=
  let budget := plan.request.budget
  {budget with
    deadlineSeconds := max (1 / 1000) (budget.deadlineSeconds - elapsed)
    attempts := max 0 (budget.attempts - ctx.attempts.length)
    redirects := max 0 (budget.redirects - ctx.consumedBudget .redirects)
    bytes := max 0 (budget.bytes - ctx.consumedBudget .bytes)
    decompressedBytes := max 0 (budget.decompressedBytes - ctx.consumedBudget .decompressedBytes)
    archiveMembers := max 0 (budget.archiveMembers - ctx.consumedBudget .archiveMembers)
    browserSeconds := max 0 (budget.browserSeconds - ctx.consumedFloat .browserSeconds)
    modelTokens := max 0 (budget.modelTokens - ctx.consumedBudget .modelTokens)
    monetaryCeiling := max 0 (budget.monetaryCeiling - ctx.consumedFloat .monetaryCeiling)}

/-- The outcomes `execute` records after its loop. -/
def closingOutcomes (plan : FetchPlan) (ctx : ExecutionContext) : ExecutionContext :=
  let ctx := ctx.recordOutcome "fetch_attempt_logging" .applied "ledger" [("attempts", .int ctx.attempts.length)]
  let ctx := ctx.recordOutcome "timeout_diagnostics" .applied "executor"
    [("deadline_seconds", .float plan.request.budget.deadlineSeconds)]
  if ctx.capabilityOutcomes.any (·.capabilityId == "cache_expiry_check") then ctx
  else ctx.recordOutcome "cache_expiry_check" .notApplicable "cache"
    [("reason", .text "no validated cache record was consulted")]

namespace Locals

/-- The skip of a node whose dependencies did not complete. -/
def skipDependencies (l : Locals) (node : PlanNode) : Locals :=
  {l with
    context := (l.context.diagnose "dependency_skipped" (node.id ++ " dependencies did not complete")).recordOutcome
      node.capabilityId .notApplicable node.adapter [("reason", .text "dependencies did not complete")]
    nodeIndex := l.nodeIndex + 1}

/-- The skip of a fallback after an accepted artifact. -/
def skipFallback (l : Locals) (node : PlanNode) : Locals :=
  {l with
    context := l.context.recordOutcome node.capabilityId .notApplicable node.adapter
      [("reason", .text ("accepted artifact made fallback for " ++ node.fallbackFor.getD "" ++ " unnecessary"))]
    completed := l.completed ++ [node.id]
    nodeIndex := l.nodeIndex + 1}

/-- A node's result comes back to the loop. -/
def absorb (l : Locals) (node : PlanNode) (r : NodeExecution) : Locals :=
  {l with
    completed := if r.completed then l.completed ++ [node.id] else l.completed
    flags := l.flags.join r}

/-- After the node that ran alone. -/
def resumeSingle (l : Locals) (t : Task) (r : NodeExecution) : Locals :=
  {l.absorb t.node r with
    context := t.context
    nodeIndex := l.nodeIndex + 1
    stopped := r.stop}

/-- After a batch: its branches are merged in plan order. -/
def joinBatch (l : Locals) (b : Batch) : Locals :=
  {b.branches.foldl (fun l br => l.absorb br.task.node br.outcome) l with
    context := mergeAll b.baseline l.context (b.branches.map (·.task.context))
    nodeIndex := l.nodeIndex + b.branches.length
    stopped := b.branches.any (·.outcome.stop)}

/-- The `FetchResult` built after the loop, before it is validated. -/
def result (plan : FetchPlan) (l : Locals) (elapsed : ℚ) (ledger : List ProvenanceEvent) : FetchResult :=
  let ctx := closingOutcomes plan l.context
  { status := status ctx l.flags
    resources := ctx.resources
    artifacts := ctx.artifacts
    attempts := ctx.attempts
    capabilityOutcomes := ctx.capabilityOutcomes
    policyDecisions := ctx.policyDecisions
    diagnostics := ctx.diagnostics
    -- the ids in the ledger, and that of `run.finished`
    provenanceEventIds := ledger.map (·.eventId) ++ [ledger.length]
    remainingBudget := remainingBudget plan ctx elapsed
    crawlReport := ctx.crawlReport }

end Locals

namespace State

def initial (plan : FetchPlan) : State where
  locals := {context := {request := plan.executionRequest}}
  ledger := emit []
    { eventType := "plan.started", actor := "planner"
      payload := [("plan_id", .int plan.planId), ("classifier", .text plan.classifier)] } []

/-- From the end of the loop to the end of `execute`. -/
def finish (plan : FetchPlan) (s : State) : State :=
  let result := s.locals.result plan s.elapsed s.ledger
  {s with
    ledger := emit s.ledger
      { eventType := "run.finished", actor := "executor", payload := [("status", .text result.status.value)] } [0]
    phase := if result.remainingBudget.violations.isEmpty then .returned result
      else .raised result.remainingBudget.violations}

/-- One turn of the loop, up to the next await. -/
def turn (plan : FetchPlan) (s : State) : Option State :=
  let l := s.locals
  match plan.nodes[l.nodeIndex]? with
  | none => some (s.finish plan)
  | some node =>
    if l.stopped then some (s.finish plan)
    else if !ready l.completed node then some {s with locals := l.skipDependencies node}
    else if l.context.accepted && isFallback node then some {s with locals := l.skipFallback node}
    else
      let batch := parallelBatch plan.nodes l.nodeIndex node l.completed l.context
      if 1 < batch.length then do
        let contexts ← parallelContexts l.context batch.length
        return {s with phase := .batch (.start l.context batch contexts)}
      else some {s with phase := .single {node, context := l.context}}

/-- The ledger after a step of a task. -/
def write (s : State) (t : Task) (ev : TaskEvent) : List ProvenanceEvent :=
  match t.written ev with
  | some (event, parents) => emit s.ledger event parents
  | none => s.ledger

def step (e : Engine) (plan : FetchPlan) (s : State) : Action → Option State
  | .tick d => if 0 ≤ d then some {s with elapsed := s.elapsed + d} else none
  | .advance =>
    match s.phase with
    | .looping => s.turn plan
    | .single t => t.result?.map fun r => {s with locals := s.locals.resumeSingle t r, phase := .looping}
    | _ => none
  | .node ev =>
    match s.phase with
    | .single t => (t.step e plan s.elapsed s.ledger.length ev).map fun t' =>
        {s with ledger := s.write t ev, phase := .single t'}
    | _ => none
  | .branch i ev =>
    match s.phase with
    | .batch b => do
        let br ← b.branches[i]?
        let t' ← br.task.step e plan s.elapsed s.ledger.length ev
        return {s with
          ledger := s.write br.task ev
          phase := .batch {b with branches := b.branches.set i {br with task := t'}}}
    | _ => none
  | .collect =>
    match s.phase with
    | .batch b => b.collect.map fun b' => {s with phase := .batch b'}
    | _ => none
  | .join =>
    match s.phase with
    | .batch b => if b.finished then some {s with locals := s.locals.joinBatch b, phase := .looping} else none
    | _ => none

end State

/-- The engine running a plan. -/
def machine (e : Engine) (plan : FetchPlan) : Lib.Machine State Action where
  step := State.step e plan

/-- What `execute` returns when a run goes this way: `none` while it is under way, and
where the final validation raises. -/
def execute (e : Engine) (plan : FetchPlan) (actions : List Action) : Option FetchResult := do
  let s ← (machine e plan).run (.initial plan) actions
  match s.phase with
  | .returned r => some r
  | _ => none

theorem execute_eq_some {e : Engine} {plan : FetchPlan} {actions : List Action} {r : FetchResult}
    (h : execute e plan actions = some r) :
    ∃ s, (machine e plan).run (.initial plan) actions = some s ∧ s.phase = .returned r := by
  obtain ⟨s, hs, hr⟩ := Option.bind_eq_some_iff.mp h
  refine ⟨s, hs, ?_⟩
  split at hr
  · cases hr
    assumption
  · cases hr

/-- An engine with every adapter registered. -/
def sampleEngine : Engine where
  codecs := asciiCodecs
  registered _ := true
  sanitizeUrl url := url
  sanitizeUrlForRequest url _ := url

end Fetech.Executor
