import Mathlib.Algebra.Order.Ring.Int
import Mathlib.Algebra.Order.Field.Rat
import Mathlib.Data.Finset.Insert
import Fetech.Lib.Dict

/-! The contracts every interface shares (`fetech/models.py`).

Seconds, ratios and money are rationals. Identifiers that the code draws at random
(`uuid4`) are numbers. Instants are left out where only their presence is read
(`finished` for `finished_at is not None`). -/
namespace Fetech

/-! ### Budgets -/

/-- The integer fields of a `ResourceBudget`, by name. -/
inductive IntField where
  | attempts | redirects | bytes | decompressedBytes | crawlPages | crawlDepth | archiveMembers
  | modelTokens
  deriving DecidableEq, Repr

/-- Its other numeric fields. -/
inductive FloatField where
  | deadlineSeconds | browserSeconds | archiveRatio | monetaryCeiling
  deriving DecidableEq, Repr

def IntField.all : List IntField :=
  [.attempts, .redirects, .bytes, .decompressedBytes, .crawlPages, .crawlDepth, .archiveMembers, .modelTokens]

def FloatField.all : List FloatField := [.deadlineSeconds, .browserSeconds, .archiveRatio, .monetaryCeiling]

theorem IntField.mem_all (f : IntField) : f ∈ all := by cases f <;> decide

theorem FloatField.mem_all (f : FloatField) : f ∈ all := by cases f <;> decide

structure ResourceBudget where
  deadlineSeconds : ℚ := 30
  attempts : Int := 6
  redirects : Int := 8
  bytes : Int := 10000000
  decompressedBytes : Int := 50000000
  crawlPages : Int := 20
  crawlDepth : Int := 2
  browserSeconds : ℚ := 20
  archiveMembers : Int := 1000
  archiveRatio : ℚ := 100
  modelTokens : Int := 0
  monetaryCeiling : ℚ := 0
  deriving DecidableEq

namespace ResourceBudget

/-- `getattr(budget, name)` for an integer field. -/
def int (b : ResourceBudget) : IntField → Int
  | .attempts => b.attempts
  | .redirects => b.redirects
  | .bytes => b.bytes
  | .decompressedBytes => b.decompressedBytes
  | .crawlPages => b.crawlPages
  | .crawlDepth => b.crawlDepth
  | .archiveMembers => b.archiveMembers
  | .modelTokens => b.modelTokens

def float (b : ResourceBudget) : FloatField → ℚ
  | .deadlineSeconds => b.deadlineSeconds
  | .browserSeconds => b.browserSeconds
  | .archiveRatio => b.archiveRatio
  | .monetaryCeiling => b.monetaryCeiling

/-- Each field with whether its declared constraint (`gt`, `ge`, `le`) holds. -/
def constraints (b : ResourceBudget) : List (String × Bool) :=
  [ ("deadline_seconds", decide (0 < b.deadlineSeconds ∧ b.deadlineSeconds ≤ 3600)),
    ("attempts", decide (0 ≤ b.attempts ∧ b.attempts ≤ 100)),
    ("redirects", decide (0 ≤ b.redirects ∧ b.redirects ≤ 30)),
    ("bytes", decide (0 ≤ b.bytes ∧ b.bytes ≤ 2000000000)),
    ("decompressed_bytes", decide (0 ≤ b.decompressedBytes ∧ b.decompressedBytes ≤ 4000000000)),
    ("crawl_pages", decide (1 ≤ b.crawlPages ∧ b.crawlPages ≤ 100000)),
    ("crawl_depth", decide (0 ≤ b.crawlDepth ∧ b.crawlDepth ≤ 20)),
    ("browser_seconds", decide (0 ≤ b.browserSeconds ∧ b.browserSeconds ≤ 1800)),
    ("archive_members", decide (1 ≤ b.archiveMembers ∧ b.archiveMembers ≤ 1000000)),
    ("archive_ratio", decide (1 ≤ b.archiveRatio ∧ b.archiveRatio ≤ 100000)),
    ("model_tokens", decide (0 ≤ b.modelTokens ∧ b.modelTokens ≤ 1000000)),
    ("monetary_ceiling", decide (0 ≤ b.monetaryCeiling)) ]

/-- The fields validation rejects, in declaration order. -/
def violations (b : ResourceBudget) : List String :=
  (b.constraints.filter fun c => !c.2).map Prod.fst

/-- What validation accepts. -/
def Valid (b : ResourceBudget) : Prop := b.violations = []

instance (b : ResourceBudget) : Decidable b.Valid := inferInstanceAs (Decidable (_ = _))

theorem valid_iff (b : ResourceBudget) : b.Valid ↔ ∀ c ∈ b.constraints, c.2 = true := by
  simp [Valid, violations, List.map_eq_nil_iff, List.filter_eq_nil_iff]

theorem Valid.attempts_nonneg {b : ResourceBudget} (h : b.Valid) : 0 ≤ b.attempts := by
  have hc := (valid_iff b).mp h ("attempts", decide (0 ≤ b.attempts ∧ b.attempts ≤ 100)) (by simp [constraints])
  exact (of_decide_eq_true hc).1

theorem Valid.archiveMembers_pos {b : ResourceBudget} (h : b.Valid) : 0 < b.archiveMembers := by
  have hc := (valid_iff b).mp h ("archive_members", decide (1 ≤ b.archiveMembers ∧ b.archiveMembers ≤ 1000000))
    (by simp [constraints])
  exact (of_decide_eq_true hc).1

theorem Valid.crawlPages_pos {b : ResourceBudget} (h : b.Valid) : 1 ≤ b.crawlPages := by
  have hc := (valid_iff b).mp h ("crawl_pages", decide (1 ≤ b.crawlPages ∧ b.crawlPages ≤ 100000)) (by simp [constraints])
  exact (of_decide_eq_true hc).1

end ResourceBudget

/-- A `consumed_budget` mapping: a name that was never recorded reads as zero. The
amounts have the type of the budget field they count against. -/
structure Consumption where
  int : IntField → Int := fun _ => 0
  float : FloatField → ℚ := fun _ => 0

/-! ### Requests and plans -/

/-- The fields of a request that say how fresh and how private it is and where it is made. -/
structure Profile where
  privacyProfile : String := "public"
  policyProfile : String := "default"
  freshnessSeconds : Option Nat := none
  region : Option String := none
  deriving DecidableEq

structure FetchRequest where
  target : String
  intent : String := "retrieve"
  outputRequirements : List String := ["clean_text"]
  authenticationRef : Option String := none
  language : Option String := none
  allowCapabilities : List String := []
  denyCapabilities : List String := []
  approvedCapabilities : List String := []
  budget : ResourceBudget := {}
  metadata : Lib.Dict String String := ∅
  profile : Profile := {}

structure RetryRule where
  maximum : Nat := 1
  backoffSeconds : ℚ := 1 / 4
  retryableCodes : List String := ["timeout", "connection", "429", "5xx"]
  deriving DecidableEq

structure PlanNode where
  id : String
  capabilityId : String
  adapter : String
  dependencies : List String := []
  parallelGroup : Option String := none
  retry : RetryRule := {}
  fallbackFor : Option String := none
  stopOnAcceptance : Bool := false
  requiresApproval : Bool := false
  /-- The items of `reserved_budget` and `parameters`. -/
  reservedBudget : Finset (String × ℚ) := ∅
  parameters : Finset (String × String) := ∅
  deriving DecidableEq

/-- Each node's dependencies are among those listed before it. -/
def Ordered (nodes : List PlanNode) : Prop :=
  ∀ before node after, nodes = before ++ node :: after → ∀ d ∈ node.dependencies, d ∈ before.map (·.id)

/-- A plan with the request its adapters see. `bind_execution_request` accepts only a
request that differs from the serialized one in its target, and every request was
validated when it was made. -/
structure FetchPlan where
  planId : Nat := 0
  request : FetchRequest
  nodes : List PlanNode
  classifier : String := "rules-v1"
  executionRequest : FetchRequest := request
  bound : request = {executionRequest with target := request.target} := by rfl
  validBudget : request.budget.Valid := by decide

theorem FetchPlan.budget_eq (p : FetchPlan) : p.executionRequest.budget = p.request.budget := by
  rw [p.bound]

/-! ### What a run records -/

inductive AttemptStatus where
  | planned | running | succeeded | skipped | failed | cancelled
  deriving DecidableEq, Repr

/-- Neither `RUNNING` nor `PLANNED`. -/
def AttemptStatus.closed : AttemptStatus → Bool
  | .planned => false
  | .running => false
  | _ => true

structure FetchAttempt where
  capabilityId : String
  sanitizedDestination : String := ""
  status : AttemptStatus := .planned
  finished : Bool := false
  httpStatus : Option Nat := none
  bytesReceived : Nat := 0
  artifactIds : List Nat := []
  failureCode : Option String := none
  warnings : List String := []
  consumedBudget : Consumption := {}

structure Resource where
  resourceId : Nat
  canonicalUrl : String := ""
  requestedUrl : String := ""
  authorityUrl : Option String := none
  mediaType : Option String := none
  statusCode : Option Nat := none

inductive PageState where
  | ok | empty | login | captcha | botBlock | paywall | error | wrongLanguage | needsOcr | unknown
  deriving DecidableEq, Repr

/-- The text of a page state. -/
def PageState.value : PageState → String
  | ok => "OK"
  | empty => "EMPTY"
  | login => "LOGIN"
  | captcha => "CAPTCHA"
  | botBlock => "BOT_BLOCK"
  | paywall => "PAYWALL"
  | error => "ERROR"
  | wrongLanguage => "WRONG_LANGUAGE"
  | needsOcr => "NEEDS_OCR"
  | unknown => "UNKNOWN"

structure QualityAssessment where
  pageState : PageState := .unknown
  score : ℚ := 0
  accepted : Bool := false
  duplicateOf : Option Nat := none
  deriving DecidableEq

structure Artifact where
  artifactId : Nat
  role : String := "source"
  representation : String := "raw"
  mediaType : String := ""
  casUri : String := ""
  sha256 : String := ""
  size : Nat := 0
  sourceResourceId : Nat := 0
  extractorVersion : String := ""
  quality : QualityAssessment := {}
  deriving DecidableEq

inductive OutcomeStatus where
  | applied | observed | notApplicable | blocked | dependencyMissing | failed
  deriving DecidableEq, Repr

inductive Detail where
  | text (s : String)
  | int (n : Int)
  | float (q : ℚ)
  | flag (b : Bool)
  | null
  deriving DecidableEq

structure CapabilityOutcome where
  capabilityId : String
  status : OutcomeStatus
  stage : String
  details : List (String × Detail) := []
  deriving DecidableEq

structure PolicyDecision where
  policyId : String
  allowed : Bool
  reason : String
  destination : Option String := none
  deriving DecidableEq, Repr

structure Diagnostic where
  code : String
  message : String
  retryable : Bool := false
  deriving DecidableEq, Repr

structure CrawlReport where
  rootUrl : String
  pagesFetched : Nat
  pagesFailed : Nat
  maximumDepthReached : Nat
  frontierOmitted : Nat
  deriving DecidableEq, Repr

structure ProvenanceEvent where
  eventId : Nat
  eventType : String
  actor : String
  payload : List (String × Detail) := []
  parentEventIds : List Nat := []
  deriving DecidableEq

inductive ResultStatus where
  | succeeded | partialResult | blockedByPolicy | authRequired | dependencyMissing | budgetExhausted
  | lowQuality | notFound | failed
  deriving DecidableEq, Repr

/-- The text of a status. -/
def ResultStatus.value : ResultStatus → String
  | succeeded => "SUCCEEDED"
  | partialResult => "PARTIAL"
  | blockedByPolicy => "BLOCKED_BY_POLICY"
  | authRequired => "AUTH_REQUIRED"
  | dependencyMissing => "DEPENDENCY_MISSING"
  | budgetExhausted => "BUDGET_EXHAUSTED"
  | lowQuality => "LOW_QUALITY"
  | notFound => "NOT_FOUND"
  | failed => "FAILED"

structure FetchResult where
  status : ResultStatus
  resources : List Resource
  artifacts : List Artifact
  attempts : List FetchAttempt
  capabilityOutcomes : List CapabilityOutcome
  policyDecisions : List PolicyDecision
  diagnostics : List Diagnostic
  provenanceEventIds : List Nat
  remainingBudget : ResourceBudget
  crawlReport : Option CrawlReport

end Fetech
