import Fetech.AuthFlows.Forms
import Fetech.Http
import Fetech.Lib.Runs

/-! Approved forms (`fetech/adapters/auth.py`).

`_submit_form` awaits three things: the policy's word on the target of the request, its word on the
target of the form, and the HTTP call. What it does between two of them is one `Program` over the
run and the provider. The calls of all runs take turns there (`machine`), with the tokens that the
runs extract and whatever else their adapters do. The record of the answer is left out. -/
namespace Fetech.AuthAdapter
open Lib Lib.Url Lib.Program AuthFlows Http

abbrev RunId := Nat

abbrev CallId := Nat

/-- What is raised within the `try` of `_submit_form`. -/
inductive Fault where
  | submission (err : SubmissionError)
  | raised (err : HttpError)

/-- A run: the context of its adapters, with the token that was extracted and where. -/
structure RunState where
  context : ExecutionContext
  csrfToken : Option CSRFTokenMaterial := none
  csrfSourceResourceId : Option Nat := none

/-- What a call works on between two awaits. -/
structure Site (c : Codecs) where
  run : RunState
  provider : InMemoryFormSubmissionProvider c

abbrev SubmitM (c : Codecs) := Program (Site c) Fault

/-- What the policy goes by: the addresses validated so far and the resolver. -/
structure Resolution where
  validated : ValidatedAddresses := ∅
  addresses : String → Nat → List String

section
variable (a : HttpAdapter)

/-- Nothing is allowed to go there. -/
def block {α : Type} (policyId reason url : String) : SubmitM a.codecs α := do
  let destination ← ofOption (.raised .value) (a.policy.sanitizeUrl url)
  raise (.raised (.policy (.blocked reason [{policyId, allowed := false, reason, destination := some destination}])))

/-- `policy.evaluate`, its decisions recorded. -/
def evaluate (target : String) (previousUrl : Option String) (r : Resolution) : SubmitM a.codecs String := do
  let (normalized, decisions, _) ← ofExcept
    ((a.policy.evaluate r.validated r.addresses target previousUrl).mapError fun err => .raised (.policy err))
  modify fun s => {s with run := {s.run with context := recordDecisions decisions s.run.context}}
  return normalized

/-- `_origin`. -/
def originOf (url : String) : SubmitM a.codecs String :=
  ofOption (.raised (originError a.codecs url)) (canonicalOrigin a.codecs url)

/-! ### To the proposal -/

/-- `_evaluate_session_policy`, for a form. -/
def evaluateSessionPolicy (r : Resolution) : SubmitM a.codecs String := do
  let s ← get
  let normalized ← evaluate a s.run.context.request.target none r
  when (normalized.startsWith "https://" = false)
    (block a "authenticated_https" "authenticated sessions require an HTTPS destination" normalized)
  return normalized

/-- What the adapter makes of an error of the provider: what is not the provider's own becomes it. -/
def providerError : SubmissionError → SubmissionError
  | .notFound message => .notFound message
  | .provider message => .provider message
  | _ => .provider "form submission provider failed"

/-- `_resolve_submission`. -/
def resolveSubmission (reference : String) (instant : ℚ) : SubmitM a.codecs (FormSubmission a.codecs) := do
  let s ← get
  let (consumed, provider) := s.provider.consume reference instant
  modify fun s => {s with provider}
  ofExcept (consumed.mapError fun err => .submission (providerError err))

/-- Up to the second await: the proposal, out of the provider and within the origin of the request. -/
def takeProposal (reference : String) (r : Resolution) (instant : ℚ) : SubmitM a.codecs (FormSubmission a.codecs) := do
  let normalizedTarget ← evaluateSessionPolicy a r
  let submission ← resolveSubmission a reference instant
  check (submission.authenticationRef == some reference)
    (.submission (.flow (.flow "form submission reference does not match the request reference")))
  let origin ← originOf a submission.target
  let requestOrigin ← originOf a normalizedTarget
  when (origin ≠ requestOrigin)
    (block a "form_action_origin" "form submission action must remain on the request origin" submission.target)
  return submission

/-! ### To the HTTP call -/

/-- `_evaluate_form_action_policy`. -/
def evaluateFormActionPolicy (submission : FormSubmission a.codecs) (r : Resolution) : SubmitM a.codecs Unit := do
  let s ← get
  let normalized ← evaluate a submission.target (some s.run.context.request.target) r
  check (normalized == submission.target) (.raised (.execution "form action changed during destination normalization"))

/-- `_context_csrf`. -/
def contextCsrf : SubmitM a.codecs (Option CSRFTokenMaterial) := do
  let s ← get
  match s.run.csrfToken with
  | none => return none
  | some token => do
    let sourceId ← ofOption (.raised (.execution "CSRF source binding is missing")) s.run.csrfSourceResourceId
    let source := s.run.context.resources.find? (·.resourceId = sourceId)
    check (source.any (·.canonicalUrl = token.sourceUrl)) (.raised (.execution "CSRF source binding is invalid"))
    return some token

/-- `compare_digest` of texts: a `TypeError` unless both are ASCII. -/
def compareDigest (left right : String) : Except HttpError Bool :=
  if isAscii left.toList && isAscii right.toList then .ok (left = right) else .error (.other "TypeError")

/-- `_same_csrf_material`. -/
def sameCsrfMaterial (supplied extracted : CSRFTokenMaterial) : Except HttpError Bool :=
  if supplied.sourceUrl = extracted.sourceUrl ∧ supplied.formAction = extracted.formAction ∧
      supplied.formMethod = extracted.formMethod ∧ supplied.fieldName = extracted.fieldName then
    compareDigest supplied.token extracted.token
  else .ok false

/-- The proposal with the token of the run, which its own must be. -/
def bindCsrf (submission : FormSubmission a.codecs) (instant : ℚ) : SubmitM a.codecs (FormSubmission a.codecs) := do
  let mismatch := Fault.raised (.execution "form CSRF token does not match the current source binding")
  let csrf ← contextCsrf a
  match submission.csrf, csrf with
  | some _, none => raise mismatch
  | some supplied, some extracted => do
    let same ← ofExcept ((sameCsrfMaterial supplied extracted).mapError .raised)
    check same mismatch
    return submission
  | none, some extracted =>
    ofExcept ((FormSubmission.create instant submission.target submission.method submission.fields
      submission.authenticationRef (some extracted) submission.approval).mapError .submission)
  | none, none => return submission

/-- Whether the run has a credential of a session. -/
def hasSessionCredential (ctx : ExecutionContext) : Bool :=
  match ctx.sensitiveState.get? "credential_material" with
  | some (.material _) => true
  | _ => false

/-- A call that is about to be made: the proposal as it goes out, and when its body was built. -/
structure Prepared where
  submission : FormSubmission a.codecs
  payload : Dict String String
  builtAt : ℚ
  sessionCredential : Bool

/-- `urlencode(payload).encode("utf-8")` -/
def encodedPayload (payload : Dict String String) : List UInt8 :=
  encodeUtf8 (urlencode (payload.entries.map fun e => (e.1.toList, e.2.toList)))

/-- The arguments of `_request`. -/
def Prepared.httpCall {a : HttpAdapter} (p : Prepared a) : HttpCall where
  destination := p.submission.target
  methodOverride := some p.submission.method
  body := some (encodedPayload p.payload)
  extraHeaders := (∅ : Dict String String).set "Content-Type" "application/x-www-form-urlencoded"
  allowEphemeralLoginCookies := !p.sessionCredential
  credentialMode := if p.sessionCredential then .request else .anonymous

/-- Up to the third await: the approval is checked by the clock when a token is bound, then, and when
the body is built. -/
def prepareCall (submission : FormSubmission a.codecs) (r : Resolution) (clock : Nat → ℚ) : SubmitM a.codecs (Prepared a) := do
  evaluateFormActionPolicy a submission r
  let submission ← bindCsrf a submission (clock 0)
  ofExcept ((submission.assertAuthorized (clock 1)).mapError .submission)
  let payload ← ofExcept ((submission.payload (clock 2)).mapError .submission)
  let s ← get
  return {submission, payload, builtAt := clock 2, sessionCredential := hasSessionCredential s.run.context}

/-! ### Attempts -/

/-- `_start_attempt`; `none` is the `ValueError`. -/
def startAttempt (ctx : ExecutionContext) : Option FetchAttempt := do
  let sanitizedDestination ← a.policy.sanitizeUrl ctx.request.target
  return {capabilityId := "form_submit", sanitizedDestination, status := .running}

/-- `_fail_attempt`. -/
def failAttempt (attempt : FetchAttempt) (failureCode : String) (ctx : ExecutionContext) : ExecutionContext :=
  let failed := {attempt with status := .failed, finished := true, failureCode := some failureCode}
  {ctx with attempts := ctx.attempts.set (ctx.attempts.length - 1) failed}

/-- The handlers: the code of the attempt and what is raised in the end; `none` is not handled. -/
def closing (target : String) : Fault → Option (String × HttpError)
  | .submission (.approvalRequired _) =>
    let reason := "form_submit requires a live exact-target approval"
    match a.policy.sanitizeUrl target with
    | none => some ("policy", .value)
    | some destination => some ("policy", .policy (.blocked reason
        [{policyId := "form_submit_approval", allowed := false, reason, destination := some destination}]))
  | .submission (.notFound _) => some ("dependency_missing", .dependency "approved form submission provider is unavailable")
  | .submission (.provider _) => some ("dependency_missing", .dependency "form submission provider failed")
  | .submission (.flow _) => some ("adapter_failed", .execution "form submission proposal is invalid")
  | .raised (.policy (.blocked reason decisions)) => some ("policy", .policy (.blocked reason decisions))
  | .raised (.authExpired message) => some ("auth_expired", .authExpired message)
  | .raised (.authRequired message) => some ("auth_required", .authRequired message)
  | .raised (.dependency message) => some ("dependency_missing", .dependency message)
  | .raised (.execution message) => some ("adapter_failed", .execution message)
  | .raised (.budgetExceeded message) => some ("adapter_failed", .budgetExceeded message)
  | .raised (.notFound message) => some ("adapter_failed", .notFound message)
  | .raised (.transport _ _) => some ("adapter_failed", .execution "form transport failed")
  | .raised (.deadline _) => some ("adapter_failed", .execution "form transport failed")
  | .raised (.unicode _) => some ("adapter_failed", .execution "form transport failed")
  | .raised .cancelled => none
  | .raised _ => some ("adapter_failed", .execution "form execution boundary failed")

end

/-! ### Tokens -/

/-- `_extract_csrf`, once the page of a resource is read: the run with its token. -/
def extractCsrf (c : Codecs) (htmlParser : HTMLParser) (source : Resource) (body : List UInt8) (run : RunState) :
    Except AuthFlowError RunState := do
  let token ← extractCsrfToken c htmlParser (.bytes body) source.canonicalUrl {}
  return {run with
    csrfToken := some token
    csrfSourceResourceId := some source.resourceId
    context := run.context.recordOutcome "csrf_token" .applied "auth"
      [("exact_action", .flag true), ("method", .text token.formMethod), ("field_name", .text token.fieldName)]}

/-! ### Calls that take turns -/

/-- A call of `_submit_form` behind its first checks. -/
structure Call where
  run : RunId
  reference : String
  attempt : FetchAttempt

/-- Where a call awaits. -/
inductive Phase (a : HttpAdapter) where
  | idle
  | admitting (call : Call)
  | proposing (call : Call) (submission : FormSubmission a.codecs)
  | requesting (call : Call) (prepared : Prepared a)
  | ended (outcome : Except HttpError HttpResult)

/-- An HTTP call that was made and what it put on the wire; `askedAt` is when it asked for its first
slot, before anything was sent. -/
structure Submitted (a : HttpAdapter) where
  id : CallId
  call : Call
  prepared : Prepared a
  askedAt : ℚ
  sent : List Sent

/-- What happened: the references that were taken out of the provider, the tokens that were
extracted, each with its run, and the HTTP calls that were made. -/
structure History (a : HttpAdapter) where
  taken : List String := []
  extracted : List (RunId × CSRFTokenMaterial) := []
  submitted : List (Submitted a) := []

structure State (a : HttpAdapter) where
  provider : InMemoryFormSubmissionProvider a.codecs
  runs : RunId → RunState
  calls : CallId → Phase a := fun _ => .idle
  history : History a := {}

/-- A step: a run's token is extracted, a run's other adapters do something, a call begins or goes on
to its next await, or it is cancelled. Each comes with what the world answers. -/
inductive Move where
  | extract (run : RunId) (htmlParser : HTMLParser) (sourceId : Nat) (body : List UInt8)
  | others (run : RunId) (ops : List ContextOp)
  | start (id : CallId) (run : RunId)
  | take (id : CallId) (r : Resolution) (instant : ℚ)
  | prepare (id : CallId) (r : Resolution) (clock : Nat → ℚ)
  | transmit (id : CallId) (world : World) (validated : ValidatedAddresses)
  | cancel (id : CallId)

namespace State
variable {a : HttpAdapter} (s : State a)

def setRun (id : RunId) (run : RunState) : State a := {s with runs := Function.update s.runs id run}

def setPhase (id : CallId) (phase : Phase a) : State a := {s with calls := Function.update s.calls id phase}

def setContext (id : RunId) (ctx : ExecutionContext) : State a := s.setRun id {s.runs id with context := ctx}

def site (id : RunId) : Site a.codecs := ⟨s.runs id, s.provider⟩

/-- The site as a call leaves it; what the provider has no longer was taken. -/
def settle (id : RunId) (left : Site a.codecs) : State a :=
  let gone := s.provider.references.filter fun reference => (left.provider.submissions.get? reference).isNone
  {s.setRun id left.run with
    provider := left.provider
    history := {s.history with taken := s.history.taken ++ gone}}

/-- The end of a call that raised. -/
def fail (id : CallId) (call : Call) (fault : Fault) : State a :=
  let ctx := (s.runs call.run).context
  match closing a ctx.request.target fault with
  | none => s.setPhase id (.ended (.error .cancelled))
  | some (failureCode, err) => (s.setContext call.run (failAttempt call.attempt failureCode ctx)).setPhase id (.ended (.error err))

/-- A call begins. -/
def start (id : CallId) (run : RunId) : State a :=
  let ctx := (s.runs run).context
  match startAttempt a ctx with
  | none => s.setPhase id (.ended (.error .value))
  | some attempt =>
    let s := s.setContext run {ctx with attempts := ctx.attempts ++ [attempt]}
    match ctx.request.authenticationRef with
    | none =>
      let message := "form submission requires an opaque authentication reference"
      (s.setContext run (failAttempt attempt "auth_required" (s.runs run).context)).setPhase id (.ended (.error (.authRequired message)))
    | some reference => s.setPhase id (.admitting ⟨run, reference, attempt⟩)

/-- A call goes on to its next await, or ends. -/
def goOn {α : Type} (id : CallId) (call : Call) (segment : SubmitM a.codecs α) (next : α → Phase a) : State a :=
  let (result, left) := segment (s.site call.run)
  let s := s.settle call.run left
  match result with
  | .ok x => s.setPhase id (next x)
  | .error fault => s.fail id call fault

/-- The HTTP call, from its first await to its end. -/
def transmit (id : CallId) (call : Call) (prepared : Prepared a) (world : World) (validated : ValidatedAddresses) : State a :=
  let (result, left) := request a prepared.httpCall world (.initial (s.runs call.run).context validated prepared.httpCall)
  let askedAt := prepared.builtAt + (world.hop 0).elapsed
  let submitted := s.history.submitted ++ [{id, call, prepared, askedAt, sent := left.sent}]
  let s : State a := {s.setContext call.run left.context with history := {s.history with submitted}}
  match result with
  | .ok result => s.setPhase id (.ended (.ok result))
  | .error err => s.fail id call (.raised err)

def step (s : State a) : Move → Option (State a)
  | .extract id htmlParser sourceId body => do
    let source ← (s.runs id).context.resources.find? (·.resourceId = sourceId)
    let run ← (extractCsrf a.codecs htmlParser source body (s.runs id)).toOption
    let extracted := s.history.extracted ++ run.csrfToken.toList.map fun token => (id, token)
    return {s.setRun id run with history := {s.history with extracted}}
  | .others id ops => some (s.setContext id (ops.foldl ContextOp.apply (s.runs id).context))
  | .start id run =>
    match s.calls id with
    | .idle => some (s.start id run)
    | _ => none
  | .take id r instant =>
    match s.calls id with
    | .admitting call => some (s.goOn id call (takeProposal a call.reference r instant) (.proposing call))
    | _ => none
  | .prepare id r clock =>
    match s.calls id with
    | .proposing call submission => some (s.goOn id call (prepareCall a submission r clock) (.requesting call))
    | _ => none
  | .transmit id world validated =>
    match s.calls id with
    | .requesting call prepared => some (s.transmit id call prepared world validated)
    | _ => none
  | .cancel id =>
    match s.calls id with
    | .idle => none
    | .ended _ => none
    | _ => some (s.setPhase id (.ended (.error .cancelled)))

/-- The calls of all runs over one provider. -/
def machine (a : HttpAdapter) : Machine (State a) Move := ⟨step⟩

/-- Before any call, with the contexts of the runs and no token. -/
def initial (provider : InMemoryFormSubmissionProvider a.codecs) (contexts : RunId → ExecutionContext) : State a where
  provider
  runs id := {context := contexts id}

end State

end Fetech.AuthAdapter
