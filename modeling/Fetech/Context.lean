import Fetech.Auth

/-! What an adapter is given and may change (`fetech/adapters/base.py`).

The lists of a context only grow; an attempt may be replaced in place by a later
version of itself. Everything an adapter does to its context between two of its
awaits is a sequence of `ContextOp`s. -/
namespace Fetech

/-- A value of `sensitive_state`. -/
inductive Secret where
  | text (s : String)
  | material (m : CredentialMaterial)
  | session (s : OriginScopedSession)
  deriving DecidableEq

/-- A queued runtime event: its type, actor and payload. -/
structure PendingEvent where
  eventType : String
  actor : String
  payload : List (String × Detail) := []
  deriving DecidableEq

structure ExecutionContext where
  request : FetchRequest
  resources : List Resource := []
  artifacts : List Artifact := []
  attempts : List FetchAttempt := []
  capabilityOutcomes : List CapabilityOutcome := []
  policyDecisions : List PolicyDecision := []
  diagnostics : List Diagnostic := []
  accepted : Bool := false
  crawlReport : Option CrawlReport := none
  sensitiveState : Lib.Dict String Secret := ∅
  pendingEvents : List PendingEvent := []

/-- Consumption of one integer field over a list of attempts. -/
def consumedBy (attempts : List FetchAttempt) (f : IntField) : Int :=
  (attempts.map fun a => a.consumedBudget.int f).sum

/-- The same for a field in seconds or money. -/
def consumedFloatBy (attempts : List FetchAttempt) (f : FloatField) : ℚ :=
  (attempts.map fun a => a.consumedBudget.float f).sum

namespace ExecutionContext

def consumedBudget (ctx : ExecutionContext) (f : IntField) : Int := consumedBy ctx.attempts f

def consumedFloat (ctx : ExecutionContext) (f : FloatField) : ℚ := consumedFloatBy ctx.attempts f

def remainingBudget (ctx : ExecutionContext) (f : IntField) : Int :=
  max 0 (ctx.request.budget.int f - ctx.consumedBudget f)

def remainingFloat (ctx : ExecutionContext) (f : FloatField) : ℚ :=
  max 0 (ctx.request.budget.float f - ctx.consumedFloat f)

def recordOutcome (ctx : ExecutionContext) (capabilityId : String) (status : OutcomeStatus) (stage : String)
    (details : List (String × Detail) := []) : ExecutionContext :=
  {ctx with capabilityOutcomes := ctx.capabilityOutcomes ++ [{capabilityId, status, stage, details}]}

/-- Outcomes recorded one after another. -/
theorem foldl_recordOutcome {α : Type} (capabilityId : α → String) (status : α → OutcomeStatus) (stage : String)
    (details : α → List (String × Detail)) (xs : List α) (ctx : ExecutionContext) :
    xs.foldl (fun ctx x => ctx.recordOutcome (capabilityId x) (status x) stage (details x)) ctx =
      {ctx with capabilityOutcomes := ctx.capabilityOutcomes ++ xs.map fun x =>
        {capabilityId := capabilityId x, status := status x, stage, details := details x}} := by
  induction xs generalizing ctx with
  | nil => simp
  | cons x rest ih =>
    rw [List.foldl_cons, ih]
    simp [recordOutcome]

/-- The page states an outcome is recorded for. -/
def detectors : List (String × PageState) :=
  [("paywall_detection", .paywall), ("captcha_detection", .captcha), ("bot_block_detection", .botBlock),
    ("login_wall_detection", .login), ("empty_page_detection", .empty), ("error_page_detection", .error),
    ("wrong_language_detection", .wrongLanguage)]

def recordQualityOutcomes (ctx : ExecutionContext) (quality : QualityAssessment) (stage : String) : ExecutionContext :=
  let pageState := Detail.text quality.pageState.value
  let ctx := detectors.foldl (fun ctx d => ctx.recordOutcome d.1
    (if quality.pageState = d.2 then .observed else .notApplicable) stage [("page_state", pageState)]) ctx
  let ctx := ctx.recordOutcome "duplicate_detection"
    (if quality.duplicateOf.isSome then .observed else .notApplicable) stage
    [("duplicate_of", (quality.duplicateOf.map fun id => Detail.text (toString id)).getD .null)]
  ctx.recordOutcome "content_quality_validation" .applied stage
    [("accepted", .flag quality.accepted), ("page_state", pageState), ("score", .float quality.score)]

def diagnose (ctx : ExecutionContext) (code message : String) : ExecutionContext :=
  {ctx with diagnostics := ctx.diagnostics ++ [{code, message}]}

def recordRuntimeEvent (ctx : ExecutionContext) (ev : PendingEvent) : ExecutionContext :=
  {ctx with pendingEvents := ctx.pendingEvents ++ [ev]}

end ExecutionContext

/-! ### What adapters do to a context -/

inductive ContextOp where
  | addResource (r : Resource)
  | addArtifact (a : Artifact)
  | addAttempt (a : FetchAttempt)
  /-- `attempts[i] = …`: a later version of an attempt in its place. -/
  | setAttempt (i : Nat) (a : FetchAttempt)
  | addOutcome (o : CapabilityOutcome)
  | addPolicyDecision (d : PolicyDecision)
  | addDiagnostic (d : Diagnostic)
  | setAccepted (b : Bool)
  | setCrawlReport (r : CrawlReport)
  | putSecret (key : String) (value : Secret)
  | queueEvent (ev : PendingEvent)

namespace ContextOp

def apply (ctx : ExecutionContext) : ContextOp → ExecutionContext
  | addResource r => {ctx with resources := ctx.resources ++ [r]}
  | addArtifact a => {ctx with artifacts := ctx.artifacts ++ [a]}
  | addAttempt a => {ctx with attempts := ctx.attempts ++ [a]}
  | setAttempt i a => {ctx with attempts := ctx.attempts.set i a}
  | addOutcome o => {ctx with capabilityOutcomes := ctx.capabilityOutcomes ++ [o]}
  | addPolicyDecision d => {ctx with policyDecisions := ctx.policyDecisions ++ [d]}
  | addDiagnostic d => {ctx with diagnostics := ctx.diagnostics ++ [d]}
  | setAccepted b => {ctx with accepted := b}
  | setCrawlReport r => {ctx with crawlReport := some r}
  | putSecret key value => {ctx with sensitiveState := ctx.sensitiveState.set key value}
  | queueEvent ev => ctx.recordRuntimeEvent ev

end ContextOp

/-- One context is a later state of another: every list has only grown, the request
is the same and no attempt was dropped. -/
structure ExecutionContext.Grows (before after : ExecutionContext) : Prop where
  request : after.request = before.request
  resources : before.resources <+: after.resources
  artifacts : before.artifacts <+: after.artifacts
  attempts : before.attempts.length ≤ after.attempts.length
  outcomes : before.capabilityOutcomes <+: after.capabilityOutcomes
  decisions : before.policyDecisions <+: after.policyDecisions
  diagnostics : before.diagnostics <+: after.diagnostics
  events : before.pendingEvents <+: after.pendingEvents

namespace ExecutionContext.Grows

theorem refl (ctx : ExecutionContext) : Grows ctx ctx :=
  ⟨rfl, List.prefix_rfl, List.prefix_rfl, le_refl _, List.prefix_rfl, List.prefix_rfl, List.prefix_rfl, List.prefix_rfl⟩

theorem trans {a b c : ExecutionContext} (hab : Grows a b) (hbc : Grows b c) : Grows a c where
  request := hbc.request.trans hab.request
  resources := hab.resources.trans hbc.resources
  artifacts := hab.artifacts.trans hbc.artifacts
  attempts := hab.attempts.trans hbc.attempts
  outcomes := hab.outcomes.trans hbc.outcomes
  decisions := hab.decisions.trans hbc.decisions
  diagnostics := hab.diagnostics.trans hbc.diagnostics
  events := hab.events.trans hbc.events

end ExecutionContext.Grows

theorem ContextOp.apply_grows (op : ContextOp) (ctx : ExecutionContext) : ctx.Grows (op.apply ctx) := by
  cases op <;> constructor <;> simp [apply, ExecutionContext.recordRuntimeEvent]

end Fetech
