import Fetech.Http

/-! One acquisition by HTTP (`HTTPAdapter.execute` in `fetech/adapters/http.py`).

An attempt is appended as `RUNNING`, the call of `_request` and what is made of its page
run under a `try`, and the handlers put the attempt's last state in its place. An error
no handler lists goes out as it is and leaves the attempt as it was. What a page goes
through outside the adapter (its charset, the HTML parser, regular expressions, the
quality score) is data of the `Fetcher`: a theorem about every `Fetcher` is one about
every such library. -/
namespace Fetech.Http
open Lib Lib.Url Lib.Program

/-! ### The markup of a page -/

/-- One call of a handler by `HTMLParser`. -/
inductive MarkupEvent where
  | startTag (tag : String) (attrs : List (String × Option String))
  | endTag (tag : String)
  | data (text : String)

/-- The adapter and what pages go through. `query` shows the query of a URL, `decode`
decodes a body by its content type (`errors="replace"`), `feed` gives the events of a text
and what the parser raises after them, `search` the first group of the first match of a
pattern without case, `assessText` the quality of a text. -/
structure Fetcher extends HttpAdapter where
  query : Bool → List Char → List Char
  sanitizes : policy.sanitizeUrl = fun url => sanitizeUrl policy.codecs query url
  decode : Option String → List UInt8 → Except HttpError String
  feed : String → List MarkupEvent × Option HttpError
  search : String → String → Option String
  assessText : String → String → Option String → QualityAssessment

namespace Fetcher
variable (f : Fetcher)

/-- `str.lower`. -/
def lower (text : String) : String := String.ofList (f.codecs.lower text.toList)

/-- `sanitize_url_for_request`. -/
def sanitizeUrlForRequest (url : String) (request : FetchRequest) : Option String :=
  sanitizeUrl f.codecs f.query url request.authenticationRef.isSome

end Fetcher

/-- `_NavigationParser`: where the page says it is, and whether a script is open. -/
structure Navigation where
  candidates : Dict String String := ∅
  inScript : Bool := false

/-- `str.split()`. -/
def words (text : List Char) : List (List Char) := (text.splitOnP isSpace).filter (!·.isEmpty)

namespace Navigation
variable (f : Fetcher) (baseUrl : String) (nav : Navigation)

/-- `_record`: the first candidate of a kind, joined with the base; `none` is the
`ValueError` of the join. -/
def record (capabilityId : String) (candidate : Option String) : Option Navigation :=
  match candidate.filter (!·.isEmpty) with
  | none => some nav
  | some candidate =>
    if (nav.candidates.get? capabilityId).isSome then some nav
    else (urljoin f.codecs.toTables baseUrl.toList (strip candidate.toList)).map fun url =>
      {nav with candidates := nav.candidates.set capabilityId (String.ofList url)}

/-- `_JAVASCRIPT_LOCATION`. -/
def javascriptLocation : String :=
  "(?:window\\.)?location(?:\\.href)?\\s*=\\s*['\\\"]([^'\\\"]+)['\\\"]"

def refreshUrl : String := "(?:^|;)\\s*url\\s*=\\s*['\\\"]?([^'\\\";]+)"

/-- `handle_starttag`. -/
def handleStarttag (tag : String) (attrs : List (String × Option String)) : Option Navigation := do
  let values : Dict String String := attrs.foldl (fun d e => d.set (f.lower e.1) (e.2.getD "")) ∅
  let tag := f.lower tag
  let nav := if tag = "script" then {nav with inScript := true} else nav
  let nav ←
    if tag = "link" ∧ "canonical".toList ∈ words (f.lower (values.getD "rel" "")).toList then
      nav.record f baseUrl "canonical_redirect" (values.get? "href")
    else some nav
  if tag ≠ "meta" then return nav
  let nav ←
    if f.lower (values.getD "property" "") = "og:url" then
      nav.record f baseUrl "opengraph_url_redirect" (values.get? "content")
    else some nav
  if f.lower (values.getD "http-equiv" "") = "refresh" then
    let target := (f.search refreshUrl (values.getD "content" "")).map fun url => String.ofList (strip url.toList)
    nav.record f baseUrl "meta_refresh_redirect" target
  else some nav

def handle : MarkupEvent → Option Navigation
  | .startTag tag attrs => nav.handleStarttag f baseUrl tag attrs
  | .endTag tag => some (if f.lower tag = "script" then {nav with inScript := false} else nav)
  | .data text =>
    if nav.inScript then nav.record f baseUrl "javascript_redirect" (f.search javascriptLocation text) else some nav

end Navigation

/-- The candidates of a page, in the order they are reported. -/
def navigationCapabilities : List String :=
  ["meta_refresh_redirect", "javascript_redirect", "canonical_redirect", "opengraph_url_redirect"]

/-- Every candidate is an outcome, shown without its secrets. -/
def recordCandidates (f : Fetcher) (nav : Navigation) : List String → HttpM Unit
  | [] => pure ()
  | capabilityId :: rest => do
    match nav.candidates.get? capabilityId with
    | none => recordOutcome capabilityId .notApplicable "http" [("candidate", .null), ("followed", .flag false)]
    | some candidate => do
      let shown ← sanitized f.toHttpAdapter candidate
      recordOutcome capabilityId .observed "http" [("candidate", .text shown), ("followed", .flag false)]
    recordCandidates f nav rest

/-- What the markup of a page points to. -/
def recordNavigation (f : Fetcher) (result : HttpResult) : HttpM Unit := do
  let text ← ofExcept (f.decode result.response.contentType result.body)
  let nav ← ofOption .value ((f.feed text).1.foldlM (Navigation.handle f result.url) {})
  ofExcept ((f.feed text).2.elim (.ok ()) .error)
  recordCandidates f nav navigationCapabilities

/-! ### The page of a call -/

/-- What surrounds an acquisition: its call, what the content store answers (the digest),
the identifiers drawn and the seconds it took. -/
structure PageWorld extends World where
  stored : Except HttpError String
  resourceId : Nat := 0
  artifactId : Nat := 0
  seconds : ℚ := 0

def mediaTypeOf (response : Response) : String :=
  String.ofList (strip (before ';' (response.contentType.getD "application/octet-stream").toList))

def isTextMedia (mediaType : String) : Bool :=
  "text/".toList.isPrefixOf mediaType.toList || mediaType = "application/json" || mediaType = "application/xml"

def isHtmlMedia (mediaType : String) : Bool := mediaType = "text/html" || mediaType = "application/xhtml+xml"

/-- `assess_binary`. -/
def assessBinary (size : Nat) : QualityAssessment :=
  {pageState := if 0 < size then .ok else .empty, score := if 0 < size then 1 else 0, accepted := decide (0 < size)}

def assessPage (f : Fetcher) (result : HttpResult) : HttpM QualityAssessment := do
  let s ← get
  let mediaType := mediaTypeOf result.response
  if isTextMedia mediaType then do
    let text ← ofExcept (f.decode result.response.contentType result.body)
    return f.assessText text mediaType s.context.request.language
  else return assessBinary result.body.length

/-- The page scored and stored; the resource and the artifact it becomes. -/
def storePage (f : Fetcher) (w : PageWorld) (result : HttpResult) : HttpM Artifact := do
  let s ← get
  let request := s.context.request
  let canonicalUrl ← ofOption .value (f.sanitizeUrlForRequest result.url request)
  let requestedUrl ← ofOption .value (f.sanitizeUrlForRequest request.target request)
  let mediaType := mediaTypeOf result.response
  let quality ← assessPage f result
  let digest ← ofExcept w.stored
  let resource : Resource := {
    resourceId := w.resourceId, canonicalUrl, requestedUrl, authorityUrl := some requestedUrl
    mediaType := some mediaType, statusCode := some result.response.status}
  let artifact : Artifact := {
    artifactId := w.artifactId, mediaType, casUri := "cas://sha256/" ++ digest, sha256 := digest
    size := result.body.length, sourceResourceId := w.resourceId, extractorVersion := "httpx/0.28", quality}
  record fun ctx => {ctx with resources := ctx.resources ++ [resource], artifacts := ctx.artifacts ++ [artifact]}
  return artifact

def protocolOf (version : String) : Option String :=
  if version = "1.1" then some "http_1_1" else if version = "2" then some "http_2"
  else if version = "3" then some "http_3" else none

/-- The text `needle` occurs in `text`. -/
def occursIn (needle text : List Char) : Bool := text.tails.any fun rest => needle.isPrefixOf rest

/-- `version.upper().replace("HTTP/", "")`. -/
def versionOf (f : Fetcher) (httpVersion : String) : String :=
  ((String.ofList (f.codecs.upper httpVersion.toList)).replace "HTTP/" "")

/-- What a response says about itself. -/
def responseOutcomes (f : Fetcher) (result : HttpResult) (artifact : Artifact) : List CapabilityOutcome :=
  let response := result.response
  let seen (b : Bool) : OutcomeStatus := if b then .observed else .notApplicable
  let https := (splitScheme [] (clean result.url.toList)).1 = "https".toList
  let chunked := occursIn "chunked".toList (f.codecs.lower response.transferEncoding.toList)
  let hops := result.redirectStatuses.length
  [{capabilityId := "connectivity_check", status := .applied, stage := "http"
    details := [("status_code", .int response.status)]},
   {capabilityId := "tls_certificate_check", status := if https then .applied else .notApplicable, stage := "http"
    details := [("reason", .text (if https then "TLS validation completed by the configured transport"
      else "plain HTTP target has no TLS certificate"))]},
   {capabilityId := "content_type_probe", status := .observed, stage := "validation"
    details := [("media_type", .text artifact.mediaType)]},
   {capabilityId := "file_size_probe", status := .observed, stage := "validation"
    details := [("size", .int artifact.size)]},
   {capabilityId := "streaming_response", status := .applied, stage := "http", details := [("bounded", .flag true)]},
   {capabilityId := "chunked_response", status := seen chunked, stage := "http"}] ++
  ["http_1_1", "http_2", "http_3"].map (fun capabilityId =>
    {capabilityId, status := seen (protocolOf (versionOf f response.httpVersion) = some capabilityId), stage := "http"
     details := [("negotiated", .text response.httpVersion)]}) ++
  [(301, "redirect_301"), (302, "redirect_302"), (303, "redirect_303"), (307, "redirect_307"),
    (308, "redirect_308")].map (fun e =>
    {capabilityId := e.2, status := seen (result.redirectStatuses.contains e.1), stage := "http"}) ++
  [{capabilityId := "redirect_chain", status := seen (hops ≠ 0), stage := "http", details := [("hops", .int hops)]},
   {capabilityId := "redirect_loop_detection", status := .applied, stage := "http"
    details := [("visited_urls", .int (hops + 1))]},
   {capabilityId := "source_hash_comparison", status := .observed, stage := "validation"
    details := [("sha256", .text artifact.sha256)]}]

/-- `_record_response_outcomes`. -/
def recordResponseOutcomes (f : Fetcher) (result : HttpResult) (artifact : Artifact) : HttpM Unit := do
  record fun ctx => {ctx with capabilityOutcomes := ctx.capabilityOutcomes ++ responseOutcomes f result artifact}
  when (isHtmlMedia artifact.mediaType) do
    recordOutcome "raw_html" .applied "reader" [("artifact", .text "source")]
    recordNavigation f result

/-! ### The attempt -/

/-- What an attempt reports of a call. -/
def httpConsumedBudget (usage : HttpUsage) (elapsedSeconds : ℚ) : Consumption where
  int
    | .bytes => usage.wireBytes
    | .decompressedBytes => usage.decompressedBytes
    | .redirects => usage.redirects
    | _ => 0
  float
    | .deadlineSeconds => elapsedSeconds
    | _ => 0

/-- `_anonymous_form_bootstrap`. -/
def anonymousFormBootstrap (ctx : ExecutionContext) : Bool :=
  let requested := ctx.request.outputRequirements
  requested.contains "form_submit" && !(["api_key", "bearer_token", "connector_auth", "cookie_session", "login_session",
    "oauth", "private_workspace", "sso"].any requested.contains)

/-- The call an acquisition makes. -/
def nodeCall (node : PlanNode) (ctx : ExecutionContext) : HttpCall where
  destination := ctx.request.target
  node := some node
  credentialMode := if anonymousFormBootstrap ctx then .anonymous else .request

/-- What a page is after it was stored: its outcomes, and the attempt that brought it. -/
def completePage (f : Fetcher) (w : PageWorld) (attempt : FetchAttempt) (index : Nat) (result : HttpResult)
    (artifact : Artifact) : HttpM Unit := do
  recordResponseOutcomes f result artifact
  record fun ctx => ctx.recordQualityOutcomes artifact.quality "quality"
  let destination ← sanitized f.toHttpAdapter result.url
  modify fun s => {s with context := {s.context with attempts := s.context.attempts.set index {attempt with
    status := .succeeded
    finished := true
    sanitizedDestination := destination
    httpStatus := some result.response.status
    bytesReceived := result.wireBytes
    artifactIds := [artifact.artifactId]
    consumedBudget := httpConsumedBudget s.usage w.seconds}}}

/-- The body of the `try`. -/
def acquire (f : Fetcher) (node : PlanNode) (w : PageWorld) (attempt : FetchAttempt) (index : Nat) : HttpM Unit := do
  let s ← get
  let result ← request f.toHttpAdapter (nodeCall node s.context) w.toWorld
  modify fun s => {s with
    usage := (s.usage.observeBytes result.wireBytes (result.body.length + result.auxiliaryBytes)).observeRedirects
      result.redirectStatuses.length}
  let artifact ← storePage f w result
  completePage f w attempt index result artifact

/-- What a handler makes of an error: how the attempt ends, and what is raised. -/
structure Closing where
  status : AttemptStatus
  failureCode : String
  warnings : List String
  raised : HttpError

/-- The `except` clauses of `execute`; `none` where there is none for the error. -/
def HttpError.closing (err : HttpError) : Option Closing :=
  let exhausted := "HTTP deadline budget exhausted"
  let broken typeName :=
    let message := "HTTP transport failed: " ++ typeName
    some ⟨.failed, typeName, [message], .execution message⟩
  match err with
  | .policy (.blocked _ _) => some ⟨.failed, "policy", [], err⟩
  | .cancelled => some ⟨.cancelled, "cancelled", [], err⟩
  | .deadline _ => some ⟨.failed, "budget_exhausted", [exhausted], err⟩
  | .authExpired message => some ⟨.failed, "auth_expired", [message], err⟩
  | .authRequired message => some ⟨.failed, "auth_required", [message], err⟩
  | .notFound message => some ⟨.failed, "not_found", [message], err⟩
  | .budgetExceeded message => some ⟨.failed, "budget_exhausted", [message], err⟩
  | .execution message => some ⟨.failed, "AdapterExecutionError", [message], err⟩
  | .transport _ true => some ⟨.failed, "budget_exhausted", [exhausted], .deadline exhausted⟩
  | .transport typeName false => broken typeName
  | .unicode typeName => broken typeName
  | .policy .value | .dependency _ | .value | .other _ => none

/-- The handlers: the attempt in its last state, or the error as it is. -/
def closeAttempt (w : PageWorld) (attempt : FetchAttempt) (index : Nat) (err : HttpError) : HttpM Unit :=
  match err.closing with
  | none => raise err
  | some closing => do
    modify fun s => {s with context := {s.context with attempts := s.context.attempts.set index {attempt with
      status := closing.status
      finished := true
      failureCode := some closing.failureCode
      warnings := closing.warnings
      bytesReceived := s.usage.wireBytes
      consumedBudget := httpConsumedBudget s.usage (max 0 w.seconds)}}}
    raise closing.raised

/-- `HTTPAdapter.execute`. -/
def execute (f : Fetcher) (node : PlanNode) (w : PageWorld) : HttpM Unit := do
  let s ← get
  let sanitizedDestination ← ofOption .value (f.sanitizeUrlForRequest s.context.request.target s.context.request)
  let attempt : FetchAttempt := {capabilityId := node.capabilityId, sanitizedDestination, status := .running}
  let index := s.context.attempts.length
  record fun ctx => {ctx with attempts := ctx.attempts ++ [attempt]}
  rescue (acquire f node w attempt index) (closeAttempt w attempt index)

/-- How an acquisition ends, and the state it leaves behind. -/
def fetched (f : Fetcher) (node : PlanNode) (w : PageWorld) (ctx : ExecutionContext) (validated : ValidatedAddresses) :
    Except HttpError Unit × Exchange :=
  execute f node w (.initial ctx validated (nodeCall node ctx))

end Fetech.Http
