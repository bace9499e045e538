import Fetech.Executor.Node

/-! Parallel batches: which nodes run together, what each branch may use, and how
the branches' contexts come back into the run's (`fetech/executor.py`). -/
namespace Fetech.Executor

/-- `_ContextLengths`. -/
structure ContextLengths where
  resources : Nat
  artifacts : Nat
  attempts : Nat
  capabilityOutcomes : Nat
  policyDecisions : Nat
  diagnostics : Nat
  pendingEvents : Nat
  accepted : Bool
  deriving DecidableEq, Repr

def ContextLengths.capture (ctx : ExecutionContext) : ContextLengths where
  resources := ctx.resources.length
  artifacts := ctx.artifacts.length
  attempts := ctx.attempts.length
  capabilityOutcomes := ctx.capabilityOutcomes.length
  policyDecisions := ctx.policyDecisions.length
  diagnostics := ctx.diagnostics.length
  pendingEvents := ctx.pendingEvents.length
  accepted := ctx.accepted

/-- `set(node.dependencies).issubset(completed)`. -/
def ready (completed : List String) (node : PlanNode) : Bool := node.dependencies.all completed.contains

/-- Python's truth of `node.fallback_for`. -/
def isFallback (node : PlanNode) : Bool := node.fallbackFor.any (· != "")

/-- `_parallel_batch`. -/
def parallelBatch (nodes : List PlanNode) (start : Nat) (first : PlanNode) (completed : List String)
    (ctx : ExecutionContext) : List PlanNode :=
  let remainingAttempts := ctx.request.budget.attempts - ctx.attempts.length
  if first.parallelGroup = none ∨ first.requiresApproval ∨ remainingAttempts ≤ 1 then [first]
  else
    let joins := fun candidate : PlanNode =>
      candidate.parallelGroup == first.parallelGroup && !candidate.requiresApproval &&
        ready completed candidate && !(ctx.accepted && isFallback candidate)
    -- the loop stops at the first node that does not join, or when the batch is full
    match ((nodes.drop start).takeWhile joins).take remainingAttempts.toNat with
    | [] => [first]
    | batch => batch

/-! ### Splitting the budget -/

/-- What attempts use of a field: they are counted themselves, the rest is recorded
with them. -/
def usedBy (attempts : List FetchAttempt) : IntField → Int
  | .attempts => attempts.length
  | f => consumedBy attempts f

def used (ctx : ExecutionContext) (f : IntField) : Int := usedBy ctx.attempts f

/-- What is left of `remaining` for branch `index` of `count` (`divmod`). -/
def share (remaining : Int) (count index : Nat) : Int :=
  remaining / count + if (index : Int) < remaining % count then 1 else 0

/-- The ceiling of branch `index` for an integer field. -/
def branchCeiling (ctx : ExecutionContext) (count index : Nat) (f : IntField) : Int :=
  used ctx f + share (max 0 (ctx.request.budget.int f - used ctx f)) count index

def branchFloat (ctx : ExecutionContext) (count : Nat) (f : FloatField) : ℚ :=
  ctx.consumedFloat f + max 0 (ctx.request.budget.float f - ctx.consumedFloat f) / count

def branchBudget (ctx : ExecutionContext) (count index : Nat) : ResourceBudget :=
  {ctx.request.budget with
    attempts := branchCeiling ctx count index .attempts
    redirects := branchCeiling ctx count index .redirects
    bytes := branchCeiling ctx count index .bytes
    decompressedBytes := branchCeiling ctx count index .decompressedBytes
    archiveMembers := branchCeiling ctx count index .archiveMembers
    modelTokens := branchCeiling ctx count index .modelTokens
    browserSeconds := branchFloat ctx count .browserSeconds
    monetaryCeiling := branchFloat ctx count .monetaryCeiling}

/-- `none` is the `ValueError` for no branches. -/
def partitionParallelBudgets (ctx : ExecutionContext) (count : Nat) : Option (List ResourceBudget) :=
  if count = 0 then none else some ((List.range count).map (branchBudget ctx count))

/-- A copy of the context under another budget. -/
def withBudget (ctx : ExecutionContext) (budget : ResourceBudget) : ExecutionContext :=
  {ctx with request.budget := budget}

/-- `_parallel_contexts`. -/
def parallelContexts (ctx : ExecutionContext) (count : Nat) : Option (List ExecutionContext) :=
  (partitionParallelBudgets ctx count).map fun budgets => budgets.map (withBudget ctx)

/-! ### Merging the branches -/

/-- `_merge_parallel_context`: what the branch added since the baseline. -/
def mergeParallelContext (baseline : ContextLengths) (ctx branch : ExecutionContext) : ExecutionContext :=
  {ctx with
    resources := ctx.resources ++ branch.resources.drop baseline.resources
    artifacts := ctx.artifacts ++ branch.artifacts.drop baseline.artifacts
    attempts := ctx.attempts ++ branch.attempts.drop baseline.attempts
    capabilityOutcomes := ctx.capabilityOutcomes ++ branch.capabilityOutcomes.drop baseline.capabilityOutcomes
    policyDecisions := ctx.policyDecisions ++ branch.policyDecisions.drop baseline.policyDecisions
    diagnostics := ctx.diagnostics ++ branch.diagnostics.drop baseline.diagnostics
    pendingEvents := ctx.pendingEvents ++ branch.pendingEvents.drop baseline.pendingEvents
    accepted := ctx.accepted || branch.accepted
    crawlReport := branch.crawlReport.or ctx.crawlReport
    sensitiveState := ctx.sensitiveState.update branch.sensitiveState}

/-- All branches, in plan order. -/
def mergeAll (baseline : ContextLengths) (ctx : ExecutionContext) (branches : List ExecutionContext) :
    ExecutionContext :=
  branches.foldl (mergeParallelContext baseline) ctx

end Fetech.Executor
