import Fetech.Context
import Fetech.Security
import Fetech.Http.Cookies
import Fetech.Lib.Program

/-! Bounded HTTP acquisition (`fetech/adapters/http.py`).

One call of `_request` is a `Program` over an `Exchange`: the local variables of the
function, the context and the client's cookie jar, and beside them what went over the
wire (`sent`, `robotsSent`), what came from it (`received`) and what went to the
credential provider (`refreshes`). What the world
answers on a turn of the loop is a `Hop`: every redirect chain, every clock, every
failure of the scheduler, the resolver, the provider and the transport is a sequence of
hops. A header map is a `Dict`; on the wire names are compared without case. -/
namespace Fetech.Http
open Lib Lib.Url

/-! ### What the world answers -/

/-- What a call raises. `transport` is an `httpx.HTTPError`, `unicode` a `UnicodeError`,
`value` any other `ValueError`, `cancelled` the cancellation of the task and `other`
whatever else a library raises. -/
inductive HttpError where
  | execution (message : String)
  | budgetExceeded (message : String)
  | notFound (message : String)
  | authRequired (message : String)
  | authExpired (message : String)
  | dependency (message : String)
  | policy (err : PolicyError)
  | deadline (message : String)
  | transport (typeName : String) (timeout : Bool)
  | unicode (typeName : String)
  | value
  | cancelled
  | other (typeName : String)
  deriving DecidableEq

def HttpError.ofCookie : CookieError → HttpError
  | .execution message => .execution message
  | .value => .value

/-- One item of `response.aiter_bytes()`, with `num_bytes_downloaded` when it arrives. -/
structure Chunk where
  data : List UInt8
  downloaded : Nat

/-- A response as far as it is read: `contentType` and `transferEncoding` are headers,
`httpVersion` the protocol it came by, `contentLength` the header and what `int`
makes of it, `reportsExpiredCredential` what `_reports_expired_credential` finds in the
challenge; `failure` is what the body raises after its last chunk. -/
structure Response extends ResponseCookies where
  status : Nat
  location : Option String := none
  contentType : Option String := none
  transferEncoding : String := ""
  httpVersion : String := "HTTP/1.1"
  reportsExpiredCredential : Bool := false
  contentLength : Option (Option Int) := none
  chunks : List Chunk := []
  downloaded : Nat := 0
  failure : Option HttpError := none

/-- What the credential provider answers: `invalid` is no credential material, `raised`
any exception that is not its own. -/
inductive ProviderReply where
  | material (m : CredentialMaterial)
  | notFound | unavailable | providerError | raised | invalid

/-- What the HTTP/3 client answers. -/
structure Http3Response where
  status : Nat
  redirectUrl : String := ""
  mediaType : String := ""
  body : List UInt8 := []

/-- The `httpx.Response` the adapter makes of it. -/
def Http3Response.response (r : Http3Response) : Response where
  status := r.status
  contentType := some (if r.mediaType.isEmpty then "application/octet-stream" else r.mediaType)
  httpVersion := "HTTP/3"

/-- Everything the world answers on one turn of the loop. Times are seconds: `elapsed`
since the call began, the others by the wall clock. -/
structure Hop where
  elapsed : ℚ := 0
  slot : Except HttpError Unit := .ok ()
  addresses : String → Nat → List String
  resolve : ProviderReply := .notFound
  checkedAt : ℚ := 0
  robots : Except HttpError Response := .error (.transport "ConnectError" false)
  publisherElapsed : ℚ := 0
  publisherSlot : Except HttpError Unit := .ok ()
  reply : Except HttpError Response
  capturedAt : ℚ := 0
  refresh : ProviderReply := .notFound
  refreshedAt : ℚ := 0
  http3 : Except HttpError Http3Response := .error (.dependency "HTTP/3 curl executable not found: curl")

/-! ### The adapter and a call -/

/-- The adapter and its libraries: `httpxAgent` and `acceptEncoding` are the client's
default headers, `canFetch` is `robotparser` on a body (`none` where it cannot read the
URL), `refreshes` whether the provider has a `refresh`. -/
structure HttpAdapter where
  policy : SafeUrlPolicy
  userAgent : String
  httpxAgent : String
  acceptEncoding : String
  pinned : Bool := true
  refreshes : Bool := true
  canFetch : String → List UInt8 → String → String → Option Bool
  minimumIntervalSeconds : ℚ := 0
  perHostConcurrency : Nat := 2

namespace HttpAdapter
variable (a : HttpAdapter)

def codecs : Codecs := a.policy.codecs

end HttpAdapter

inductive CredentialMode where
  | request | anonymous
  deriving DecidableEq

/-- The arguments of `_request`. -/
structure HttpCall where
  destination : String
  node : Option PlanNode := none
  methodOverride : Option String := none
  body : Option (List UInt8) := none
  extraHeaders : Dict String String := ∅
  allowEphemeralLoginCookies : Bool := false
  credentialMode : CredentialMode := .request

/-! ### Headers -/

def sameHeader (left right : String) : Bool := asciiLower left.toList == asciiLower right.toList

/-- `Headers.update`: what is named again goes, the new headers come last. -/
def mergeHeaders (headers update : List (String × String)) : List (String × String) :=
  headers.filter (fun e => !update.any fun u => sameHeader u.1 e.1) ++ update

/-- The headers of a new client. -/
def clientHeaders (a : HttpAdapter) (headers : Dict String String) : List (String × String) :=
  mergeHeaders [("Accept", "*/*"), ("Accept-Encoding", a.acceptEncoding), ("Connection", "keep-alive"),
    ("User-Agent", a.httpxAgent)] headers.entries

/-! ### The exchange -/

/-- `_HTTPUsage`. -/
structure HttpUsage where
  wireBytes : Nat := 0
  decompressedBytes : Nat := 0
  redirects : Nat := 0

namespace HttpUsage

def observeBytes (u : HttpUsage) (wireBytes decompressedBytes : Nat) : HttpUsage :=
  {u with wireBytes := max u.wireBytes wireBytes, decompressedBytes := max u.decompressedBytes decompressedBytes}

def observeRedirects (u : HttpUsage) (redirects : Nat) : HttpUsage :=
  {u with redirects := max u.redirects redirects}

end HttpUsage

/-- A request on the wire, and the state it was sent in: the jar the client would add
cookies from, the credential held and the login cookies chosen for it. -/
structure Sent where
  url : String
  method : String
  headers : List (String × String)
  body : Option (List UInt8) := none
  jar : List JarCookie := []
  credential : Option CredentialMaterial := none
  cookies : List EphemeralCookie := []
  reply : Except HttpError Response

/-- A request for a `robots.txt`. -/
structure RobotsSent where
  url : String
  headers : List (String × String)
  jar : List JarCookie

/-- A call of the provider's `refresh`. -/
structure Refresh where
  method : String
  session : OriginScopedSession
  existing : CredentialMaterial
  reply : ProviderReply
  receivedAt : ℚ

/-- What came over the wire, as it comes: where a redirect is answered, a chunk of a
`robots.txt`, the end of one, a chunk of a page with the length its headers announce, the end of a
page with the bytes downloaded by then, and an HTTP/3 body, which comes whole. -/
inductive Receipt where
  | redirect (status : Nat)
  | robots (chunk : Chunk)
  | robotsRead
  | page (announced : Nat) (chunk : Chunk)
  | ended (announced downloaded : Nat)
  | whole (body : List UInt8)

/-- The state of a call. -/
structure Exchange where
  context : ExecutionContext
  validated : ValidatedAddresses := ∅
  usage : HttpUsage := {}
  maximumWireBytes : Int := 0
  maximumDecompressedBytes : Int := 0
  method : String := "GET"
  headers : Dict String String := ∅
  client : List (String × String) := []
  requestBody : Option (List UInt8) := none
  current : String
  previous : Option String := none
  visited : List String := []
  redirectStatuses : List Nat := []
  robotsChecked : List String := []
  auxiliaryBytes : Nat := 0
  transferred : Nat := 0
  credential : Option CredentialMaterial := none
  credentialOutcomeRecorded : Bool := false
  refreshAttempted : Bool := false
  ephemeralCookies : CookieMap := ∅
  ephemeralCookieOrigin : Option String := none
  ephemeralCookieUsed : Bool := false
  jar : List JarCookie := []
  sent : List Sent := []
  robotsSent : List RobotsSent := []
  refreshes : List Refresh := []
  received : List Receipt := []

/-- What `_request` returns. -/
structure HttpResult where
  url : String
  response : Response
  body : List UInt8
  wireBytes : Nat
  redirectStatuses : List Nat
  auxiliaryBytes : Nat := 0
  cookieHandoff : Bool := false

abbrev HttpM := Program Exchange HttpError

open Program

/-- Change the context only. -/
def record (f : ExecutionContext → ExecutionContext) : HttpM Unit :=
  modify fun s => {s with context := f s.context}

def recordDecision (d : PolicyDecision) : HttpM Unit :=
  record fun ctx => {ctx with policyDecisions := ctx.policyDecisions ++ [d]}

def recordOutcome (capabilityId : String) (status : OutcomeStatus) (stage : String)
    (details : List (String × Detail) := []) : HttpM Unit :=
  record fun ctx => ctx.recordOutcome capabilityId status stage details

def recordRuntimeEvent (eventType actor : String) (payload : List (String × Detail)) : HttpM Unit :=
  record fun ctx => ctx.recordRuntimeEvent {eventType, actor, payload}

/-- `sanitize_url(url)`. -/
def sanitized (a : HttpAdapter) (url : String) : HttpM String := ofOption .value (a.policy.sanitizeUrl url)

def splitUrl (a : HttpAdapter) (url : String) : HttpM SplitResult :=
  ofOption .value (urlsplit a.codecs.toTables url.toList)

/-- What `canonical_origin` raises on a URL without origin: a `UnicodeError` where the
host has no IDNA form. -/
def originError (c : Codecs) (url : String) : HttpError :=
  match urlsplit c.toTables (strip url.toList) with
  | none => .value
  | some parts =>
    let host := parts.hostname c.toTables
    if ["http".toList, "https".toList].contains (c.lower parts.scheme) && !parts.hasUserinfo && !host.isEmpty &&
      (c.idna host).isNone then .unicode "UnicodeError" else .value

/-! ### Before the first hop -/

/-- `re.fullmatch(r"bytes=(?:\d+-\d*|-\d+)", …)`. -/
def isBytesRange (c : Codecs) (range : String) : Bool :=
  let rest := range.toList.drop 6
  let last := after '-' rest
  range.toList.take 6 == "bytes=".toList && rest.contains '-' && (before '-' rest).all c.isDecimal &&
    last.all c.isDecimal && !((before '-' rest).isEmpty && last.isEmpty)

/-- `_request_spec`. -/
def requestSpec (a : HttpAdapter) (node : Option PlanNode) (ctx : ExecutionContext) :
    Except HttpError (String × Dict String String) :=
  let capabilityId := (node.map (·.capabilityId)).getD "http_get"
  let headers := ((∅ : Dict String String).set "User-Agent" a.userAgent).set "Accept" "*/*"
  if capabilityId = "http_head" then .ok ("HEAD", headers)
  else if capabilityId = "http_post" then
    let approved := ctx.request.approvedCapabilities.contains "http_post" ||
      a.codecs.lower (ctx.request.metadata.getD "http_post_approved" "").toList == "true".toList
    if approved then .ok ("POST", headers)
    else
      let reason := "http_post requires explicit approval"
      match a.policy.sanitizeUrl ctx.request.target with
      | none => .error .value
      | some destination => .error (.policy (.blocked reason
          [{policyId := "http_post_approval", allowed := false, reason, destination := some destination}]))
  else if capabilityId = "browser_header_http" then
    .ok ("GET", ((headers.set "Accept" "text/html,application/xhtml+xml,application/xml;q=0.9,*/*;q=0.8").set
      "Accept-Language" ((ctx.request.language.filter (!·.isEmpty)).getD "en-US,en;q=0.8")).set
      "Sec-Fetch-Mode" "navigate")
  else if capabilityId = "range_request" then
    let requestedRange := ctx.request.metadata.getD "range" "bytes=0-1023"
    if isBytesRange a.codecs requestedRange then .ok ("GET", headers.set "Range" requestedRange)
    else .error (.execution "range must be a single bounded HTTP bytes range")
  else .ok ("GET", headers)

/-- The method of the call: `method_override` if there is one. -/
def overriddenMethod (a : HttpAdapter) (call : HttpCall) (method : String) : Except HttpError String :=
  match call.methodOverride with
  | none => .ok method
  | some override =>
    let method := String.ofList (a.codecs.upper (strip override.toList))
    if ["GET", "HEAD", "POST", "PUT", "PATCH", "DELETE"].contains method then .ok method
    else .error (.execution "HTTP method override is unsupported")

/-- The headers a caller may add. -/
def allowedExtraHeaders : List (List Char) :=
  ["accept".toList, "content-type".toList, "if-match".toList, "if-none-match".toList]

/-- Method and headers of the first request. -/
def initialRequest (a : HttpAdapter) (call : HttpCall) (ctx : ExecutionContext) :
    Except HttpError (String × Dict String String) := do
  let (method, headers) ← requestSpec a call.node ctx
  let method ← overriddenMethod a call method
  Except.require (call.extraHeaders.entries.all fun e => allowedExtraHeaders.contains (a.codecs.casefold e.1.toList))
    (.execution "ephemeral request contains a forbidden header")
  return (method, headers.update call.extraHeaders)

/-- `_remaining_http_deadline`. -/
def withinDeadline (elapsed : ℚ) : HttpM Unit := do
  let s ← get
  check (elapsed < s.context.request.budget.deadlineSeconds) (.deadline "HTTP deadline budget exhausted")

/-- Everything up to the opening of the client. -/
def prepare (a : HttpAdapter) (call : HttpCall) (elapsed : ℚ) : HttpM Unit := do
  let s ← get
  let maximumWireBytes := s.context.remainingBudget .bytes
  let maximumDecompressedBytes := s.context.remainingBudget .decompressedBytes
  check (0 < maximumWireBytes && 0 < maximumDecompressedBytes)
    (.budgetExceeded "HTTP acquisition has no remaining byte budget")
  withinDeadline elapsed
  let (method, headers) ← ofExcept (initialRequest a call s.context)
  check (!(call.body.isSome && (method == "GET" || method == "HEAD")))
    (.execution "request bodies are forbidden for safe retrieval methods")
  check (call.body.all fun body => (body.length : Int) ≤ min 1000000 maximumWireBytes)
    (.execution "request body exceeded the bounded upload limit")
  modify fun s => {s with
    maximumWireBytes, maximumDecompressedBytes, method, headers
    client := clientHeaders a headers
    requestBody := call.body
    current := call.destination}

/-! ### Credentials -/

/-- `_resolve_credential`. -/
def resolveCredential : ProviderReply → Except HttpError CredentialMaterial
  | .material m => .ok m
  | .notFound => .error (.authRequired "authentication reference could not be resolved")
  | .unavailable => .error (.dependency "credential provider is unavailable")
  | .providerError => .error (.dependency "credential provider failed")
  | .raised => .error (.dependency "credential provider failed")
  | .invalid => .error (.dependency "credential provider returned invalid material")

/-- The session a refresh may go through. -/
def refreshSession (ctx : ExecutionContext) (existing : CredentialMaterial) :
    Option OriginScopedSession :=
  match ctx.sensitiveState.get? "origin_scoped_session", ctx.request.authenticationRef with
  | some (.session session), some reference =>
    if session.authenticationRef = reference ∧ (session.capabilityId = .oauth ∨ session.capabilityId = .sso) ∧
        session.refreshRef.isSome ∧ existing.capabilityId = "bearer_token" then
      some session
    else none
  | _, _ => none

def isSafeMethod (method : String) : Bool := method == "GET" || method == "HEAD"

/-- What a refresh makes of the provider's answer: the reason it records and the error
it raises, or the new material. -/
def acceptRefresh (session : OriginScopedSession) (existing : CredentialMaterial) (now : ℚ) :
    ProviderReply → Except (String × HttpError) CredentialMaterial
  | .unavailable => .error ("provider_unavailable", .dependency "credential provider is unavailable")
  | .notFound => .error ("refresh_rejected", .authExpired "credential refresh was rejected")
  | .providerError => .error ("refresh_rejected", .authExpired "credential refresh was rejected")
  | .raised => .error ("provider_failed", .dependency "credential provider failed")
  | .invalid => .error ("invalid_material", .dependency "credential provider returned invalid material")
  | .material m =>
    if m.expired now then
      .error ("expired_material", .authExpired "credential refresh returned expired material")
    else if !session.bindsMaterial m then
      .error ("invalid_binding", .authRequired "refreshed credential does not match the configured session")
    else if m.capabilityId ≠ existing.capabilityId then
      .error ("credential_type_changed", .authRequired "refreshed credential changed authentication type")
    else .ok m

/-- A refresh reported as failed, or the new material reported and returned. -/
def reportRefresh (capabilityId : String) : Except (String × HttpError) CredentialMaterial → HttpM CredentialMaterial
  | .error (reason, err) => do
    recordRuntimeEvent "auth.refresh.failed" "auth" [("capability_id", .text capabilityId), ("reason", .text reason)]
    raise err
  | .ok material => do
    recordOutcome capabilityId .applied "auth" [("refreshed", .flag true)]
    recordRuntimeEvent "auth.refresh.succeeded" "auth" [("capability_id", .text capabilityId)]
    return material

/-- `_refresh_credential`. -/
def refreshCredential (a : HttpAdapter) (h : Hop) (existing : CredentialMaterial) (alreadyAttempted : Bool) :
    HttpM CredentialMaterial := do
  let s ← get
  check (!alreadyAttempted && isSafeMethod s.method) (.authExpired "credential material is expired")
  let session ← ofOption (.authExpired "credential material is expired") (refreshSession s.context existing)
  check (session.bindsMaterial existing)
    (.authRequired "credential material does not match the configured session")
  check a.refreshes (.authExpired "credential material is expired")
  recordRuntimeEvent "auth.refresh.started" "auth" [("capability_id", .text session.capabilityId.value)]
  modify fun s => {s with
    refreshes := s.refreshes ++ [{
      method := s.method, session, existing, reply := h.refresh, receivedAt := h.refreshedAt}]}
  reportRefresh session.capabilityId.value (acceptRefresh session existing h.refreshedAt h.refresh)

/-- The refreshed credential in the place of the old one, for this call and later ones. -/
def adoptCredential (m : CredentialMaterial) : HttpM Unit :=
  modify fun s => {s with
    credential := some m
    refreshAttempted := true
    context := {s.context with
      sensitiveState := s.context.sensitiveState.set "credential_material" (.material m)}}

/-- The cached credential, or what the provider resolves. -/
def obtainCredential (ctx : ExecutionContext) (reply : ProviderReply) : Except HttpError CredentialMaterial :=
  match ctx.sensitiveState.get? "credential_material" with
  | some (.material m) => .ok m
  | _ => resolveCredential reply

/-- A credential scoped to another origin than the target's ends the call. -/
def refuseCredential (a : HttpAdapter) (url : String) : HttpM Unit := do
  let reason := "credential scope does not match the initial target origin"
  let destination ← sanitized a url
  recordOutcome "connector_auth" .blocked "auth" [("reason", .text reason)]
  raise (.policy (.blocked reason
    [{policyId := "credential_origin_scope", allowed := false, reason, destination := some destination}]))

/-- The credential of the call, settled on the first hop. -/
def settleCredential (a : HttpAdapter) (call : HttpCall) (h : Hop) : HttpM Unit := do
  let s ← get
  when (call.credentialMode = .request ∧ s.context.request.authenticationRef.isSome ∧ s.credential = none) do
    let credential ← ofExcept (obtainCredential s.context h.resolve)
    modify fun s => {s with credential := some credential}
    let applies ← ofOption (originError a.codecs s.current) (credential.appliesTo a.codecs s.current)
    when (applies = false) (refuseCredential a s.current)
    when (credential.expired h.checkedAt) do
      check (credential.capabilityId == "bearer_token") (.authExpired "credential material is expired")
      let refreshed ← refreshCredential a h credential s.refreshAttempted
      adoptCredential refreshed

/-! ### One hop -/

/-- `_scheduler_host`. -/
def schedulerHost (c : Codecs) (value : String) : Except HttpError (List Char) :=
  match urlsplit c.toTables value.toList with
  | none => .error (.execution "HTTP destination is invalid")
  | some parts =>
    let host := parts.hostname c.toTables
    if host.isEmpty then .error (.execution "HTTP destination has no hostname") else .ok host

/-- A slot of the scheduler for the host of the current URL. -/
def takeSlot (a : HttpAdapter) (h : Hop) : HttpM Unit := do
  let s ← get
  let _ ← ofExcept (schedulerHost a.codecs s.current)
  withinDeadline h.elapsed
  ofExcept h.slot

/-- The decisions of the policy, recorded each with an outcome. -/
def recordDecisions (decisions : List PolicyDecision) (ctx : ExecutionContext) : ExecutionContext :=
  decisions.foldl (fun ctx d => ctx.recordOutcome d.policyId (if d.allowed then .applied else .blocked) "security"
    [("reason", .text d.reason)]) {ctx with policyDecisions := ctx.policyDecisions ++ decisions}

/-- The policy's word on the current URL. -/
def evaluateCurrent (a : HttpAdapter) (h : Hop) : HttpM Unit := do
  let s ← get
  let (url, decisions, validated) ← ofExcept
    ((a.policy.evaluate s.validated h.addresses s.current s.previous).mapError .policy)
  modify fun s => {s with current := url, validated, context := recordDecisions decisions s.context}

/-- A URL is entered once, at validated addresses. -/
def enterUrl (a : HttpAdapter) : HttpM Unit := do
  let s ← get
  check (!s.visited.contains s.current) (.execution "redirect loop detected")
  modify fun s => {s with visited := s.current :: s.visited}
  let parts ← splitUrl a s.current
  -- `transport.pin` refuses an empty list of addresses.
  check (!(a.pinned && (s.validated.of a.codecs (parts.hostname a.codecs.toTables)).isEmpty)) .value

/-- Login cookies do not leave their origin. -/
def withholdCookies (a : HttpAdapter) : HttpM Unit := do
  let s ← get
  match s.ephemeralCookieOrigin with
  | none => pure ()
  | some cookieOrigin => do
    let origin ← ofOption (originError a.codecs s.current) (canonicalOrigin a.codecs s.current)
    when (origin ≠ cookieOrigin) (modify fun s => {s with ephemeralCookies := ∅, ephemeralCookieOrigin := none})

/-! ### Robots -/

/-- The body of a `robots.txt`, chunk by chunk, and its size. -/
def readRobots (consumedBefore : Nat) (maximumBytes : Int) : List Chunk → List UInt8 → HttpM (List UInt8)
  | [], body => pure body
  | chunk :: rest, body => do
    let body := body ++ chunk.data
    modify fun s => {s with
      received := s.received ++ [.robots chunk]
      usage := s.usage.observeBytes (consumedBefore + max chunk.downloaded body.length) (consumedBefore + body.length)}
    check ((body.length : Int) ≤ maximumBytes) (.execution "robots.txt exceeded its bounded byte budget")
    readRobots consumedBefore maximumBytes rest body

/-- An `httpx.HTTPError` while the policy is fetched is reported as such. -/
def robotsFailed {α : Type} : HttpError → HttpM α
  | .transport typeName _ => do
    recordOutcome "robots_policy_check" .failed "security" [("reason", .text typeName)]
    raise (.execution "robots policy retrieval failed")
  | err => raise err

/-- The verdict of a `robots.txt`, recorded. -/
def judgeRobots (a : HttpAdapter) (robotsUrl target : String) (body : List UInt8) : HttpM Unit := do
  let allowed ← ofOption .value (a.canFetch robotsUrl body a.userAgent target)
  let destination ← sanitized a target
  let reason := if allowed then "robots.txt permits retrieval" else "robots.txt disallows retrieval"
  let decision : PolicyDecision :=
    {policyId := "robots_policy_check", allowed, reason, destination := some destination}
  recordOutcome "robots_policy_check" (if allowed then .applied else .blocked) "security" [("allowed", .flag allowed)]
  if allowed then recordDecision decision else raise (.policy (.blocked reason [decision]))

/-- What the answer to a `robots.txt` request comes to: the bytes it took. -/
def weighRobots (a : HttpAdapter) (robotsUrl target : String) (maximumBytes : Int) (response : Response) :
    HttpM Nat := do
  if response.status ≠ 200 then do
    let destination ← sanitized a target
    let status := toString response.status
    recordDecision {
      policyId := "robots_policy_check", allowed := true
      reason := "robots.txt returned HTTP " ++ status ++ "; policy allowed retrieval"
      destination := some destination}
    recordOutcome "robots_policy_check" .applied "security"
      [("status_code", .int response.status), ("allowed", .flag true)]
    return 0
  else do
    let s ← get
    let body ← readRobots s.auxiliaryBytes maximumBytes response.chunks []
    match response.failure with
    | some err => robotsFailed err
    | none => do
      judgeRobots a robotsUrl target body
      return body.length

/-- `_enforce_robots`: sent by the client as it was opened, with an empty jar. -/
def enforceRobots (a : HttpAdapter) (h : Hop) (origin : String) (maximumBytes : Int) : HttpM Nat := do
  check (0 < maximumBytes)
    (.budgetExceeded "robots policy exhausted the remaining decompressed byte budget")
  modify fun s => {s with jar := []}
  modify fun s => {s with
    robotsSent := s.robotsSent ++ [{url := origin ++ "/robots.txt", headers := s.client, jar := s.jar}]}
  match h.robots with
  | .error err => robotsFailed err
  | .ok response => do
    modify fun s => {s with jar := s.jar ++ response.jar}
    let s ← get
    weighRobots a (origin ++ "/robots.txt") s.current maximumBytes response

/-- On a crawl, the `robots.txt` of an origin not seen yet; whether it was fetched. -/
def checkRobots (a : HttpAdapter) (h : Hop) : HttpM Bool := do
  let s ← get
  let parts ← splitUrl a s.current
  let origin := String.ofList parts.scheme ++ "://" ++ String.ofList parts.netloc
  if s.context.request.intent = "crawl" ∧ origin ∉ s.robotsChecked then do
    modify fun s => {s with robotsChecked := origin :: s.robotsChecked, jar := []}
    let bytes ← enforceRobots a h origin (min 512000 (s.maximumDecompressedBytes - s.auxiliaryBytes))
    modify fun s => {s with auxiliaryBytes := s.auxiliaryBytes + bytes, received := s.received ++ [.robotsRead]}
    return true
  else return false

/-! ### The request of a hop -/

def recordRateLimit (a : HttpAdapter) : HttpM Unit := do
  let s ← get
  let destination ← sanitized a s.current
  recordDecision {
    policyId := "rate_limit_policy", allowed := true
    reason := "per-host request interval and concurrency policy applied", destination := some destination}
  recordOutcome "rate_limit_policy" .applied "security"
    [("minimum_interval_seconds", .float a.minimumIntervalSeconds), ("concurrency", .int a.perHostConcurrency)]

/-- The first use of a credential is an outcome. -/
def recordCredentialUse (m : CredentialMaterial) : HttpM Unit := do
  let s ← get
  when (s.credentialOutcomeRecorded = false) do
    recordOutcome m.capabilityId .applied "auth" [("exact_origin", .flag true)]
    recordOutcome "connector_auth" .applied "auth" [("exact_origin", .flag true)]
    modify fun s => {s with credentialOutcomeRecorded := true}

/-- The headers of the hop with the credential, if it applies, and whether it does. -/
def applyCredential (a : HttpAdapter) : HttpM (Dict String String × Bool) := do
  let s ← get
  match s.credential with
  | none => return (s.headers, false)
  | some m => do
    let applies ← ofOption (originError a.codecs s.current) (m.appliesTo a.codecs s.current)
    let destination ← sanitized a s.current
    if applies then do
      recordDecision {
        policyId := "credential_origin_scope", allowed := true
        reason := "credential material matched the exact request origin", destination := some destination}
      recordCredentialUse m
      return (s.headers.update m.requestHeaders, true)
    else do
      recordDecision {
        policyId := "credential_origin_scope", allowed := true
        reason := "credential material was withheld from a different redirect origin"
        destination := some destination}
      recordOutcome "connector_auth" .notApplicable "auth"
        [("reason", .text "redirect origin did not match credential scope")]
      return (s.headers, false)

/-- The headers with the login cookies of the origin, and the cookies. -/
def applyCookies (a : HttpAdapter) (call : HttpCall) (headers : Dict String String) :
    HttpM (Dict String String × List EphemeralCookie) := do
  let s ← get
  if call.allowEphemeralLoginCookies then do
    let origin ← ofOption (originError a.codecs s.current) (canonicalOrigin a.codecs s.current)
    if s.ephemeralCookieOrigin = some origin then do
      let (cookies, header) ← ofExcept
        ((renderEphemeralCookieHeader a.codecs s.ephemeralCookies s.current).mapError .ofCookie)
      match header with
      | none => return (headers, [])
      | some text => do
        modify fun s => {s with ephemeralCookieUsed := true}
        return (headers.set "Cookie" text, cookies)
    else return (headers, [])
  else return (headers, [])

/-- After a `robots.txt` the publisher's request takes a slot of its own. -/
def takePublisherSlot (h : Hop) (robotsFetched : Bool) : HttpM Unit :=
  when robotsFetched do
    withinDeadline h.publisherElapsed
    ofExcept h.publisherSlot

/-- `client.stream(…)` with an emptied jar. -/
def sendRequest (h : Hop) (robotsFetched : Bool) (headers : Dict String String) (cookies : List EphemeralCookie) :
    HttpM Response := do
  modify fun s => {s with jar := []}
  takePublisherSlot h robotsFetched
  modify fun s => {s with
    sent := s.sent ++ [{
      url := s.current, method := s.method, headers := mergeHeaders s.client headers.entries
      body := s.requestBody, jar := s.jar, credential := s.credential, cookies, reply := h.reply}]}
  let response ← ofExcept h.reply
  modify fun s => {s with jar := s.jar ++ response.jar}
  return response

/-! ### The answer of a hop -/

/-- `_redirect_body_replay_error`. -/
def refuseReplay (a : HttpAdapter) (redirected : String) : HttpM Unit := do
  let reason := "a request cannot replay its body to a redirected target without a new exact-target approval"
  let destination ← sanitized a redirected
  raise (.policy (.blocked reason
    [{policyId := "redirect_body_replay", allowed := false, reason, destination := some destination}]))

/-- Method and body of the next request. -/
def switchMethod (a : HttpAdapter) (status : Nat) (redirected : String) : HttpM Unit := do
  let s ← get
  if status = 303 ∨ ((status = 301 ∨ status = 302) ∧ s.method = "POST") then
    modify fun s => {s with method := "GET", requestBody := none, headers := s.headers.erase "Content-Type"}
  else if s.requestBody.isSome then refuseReplay a redirected
  else pure ()

/-- The login cookies of a redirect, kept within the origin and dropped outside it. -/
def handCookies (a : HttpAdapter) (h : Hop) (response : Response) (redirected : String) : HttpM Unit := do
  let s ← get
  if sameExactOrigin a.codecs s.current redirected then do
    let captured ← ofExcept ((captureEphemeralLoginCookies a.codecs h.capturedAt response.toResponseCookies
      s.current s.ephemeralCookies).mapError .ofCookie)
    modify fun s => {s with
      ephemeralCookies := captured
      ephemeralCookieOrigin := if captured.size = 0 then none else canonicalOrigin a.codecs s.current}
  else modify fun s => {s with ephemeralCookies := ∅, ephemeralCookieOrigin := none}

/-- On to another URL, with what may go there. -/
def redirectTo (a : HttpAdapter) (call : HttpCall) (h : Hop) (response : Response) (redirected : String) :
    HttpM Unit := do
  when (call.allowEphemeralLoginCookies ∧ (response.status = 307 ∨ response.status = 308)) (refuseReplay a redirected)
  switchMethod a response.status redirected
  when call.allowEphemeralLoginCookies (handCookies a h response redirected)
  modify fun s => {s with previous := some s.current, current := redirected}

/-- On to where a redirect points. -/
def followRedirect (a : HttpAdapter) (call : HttpCall) (h : Hop) (response : Response) : HttpM Unit := do
  modify fun s => {s with
    received := s.received ++ [.redirect response.status]
    redirectStatuses := s.redirectStatuses ++ [response.status]
    usage := s.usage.observeRedirects (s.redirectStatuses.length + 1)}
  let s ← get
  let location ← ofOption (.execution "redirect response omitted Location") (response.location.filter (!·.isEmpty))
  let joined ← ofOption .value (urljoin a.codecs.toTables s.current.toList location.toList)
  redirectTo a call h response (String.ofList joined)

/-- A bearer token the server calls expired: refreshed once and tried again, or the end. -/
def retryExpired (a : HttpAdapter) (h : Hop) (credential : CredentialMaterial) : HttpM Unit := do
  let s ← get
  check (s.context.request.authenticationRef.isSome && !s.refreshAttempted && isSafeMethod s.method)
    (.authExpired "credential material was rejected as expired")
  let refreshed ← refreshCredential a h credential false
  adoptCredential refreshed
  modify fun s => {s with
    credentialOutcomeRecorded := false
    visited := s.visited.filter (· ≠ s.current)}

/-- `_content_length`. -/
def contentLength (response : Response) : Except HttpError (Option Nat) :=
  match response.contentLength with
  | none => .ok none
  | some none => .error (.execution "response contained an invalid Content-Length")
  | some (some length) =>
    if length < 0 then .error (.execution "response contained an invalid Content-Length")
    else .ok (some length.toNat)

/-- What has been read of a body so far counts against the budgets. -/
def observeBody (s : Exchange) (wireSize decompressedSize : Nat) : Exchange :=
  let usage := s.usage.observeBytes (wireSize + s.auxiliaryBytes) (decompressedSize + s.auxiliaryBytes)
  {s with usage := usage.observeRedirects s.redirectStatuses.length}

/-- The body, chunk by chunk, within the byte budgets. -/
def readBody (announced : Nat) : List Chunk → List UInt8 → HttpM (List UInt8)
  | [], body => pure body
  | chunk :: rest, body => do
    let body := body ++ chunk.data
    let wireSize := max chunk.downloaded announced
    modify fun s => {observeBody s wireSize body.length with received := s.received ++ [.page announced chunk]}
    let s ← get
    check (((wireSize + s.auxiliaryBytes : Nat) : Int) ≤ s.maximumWireBytes)
      (.budgetExceeded "response exceeded the remaining wire byte budget")
    check (((body.length + s.auxiliaryBytes : Nat) : Int) ≤ s.maximumDecompressedBytes)
      (.budgetExceeded "response exceeded the remaining decompressed byte budget")
    readBody announced rest body

/-- `_scrub_cookie_state`. -/
def scrubCookieState (response : Response) : Response :=
  {response with setCookie := [], jar := [], parsed := fun _ => rfl}

/-- The end of a call: the body, and what the caller gets. -/
def finish (call : HttpCall) (response : Response) : HttpM HttpResult := do
  let announced ← ofExcept (contentLength response)
  let s ← get
  check (announced.all fun n => ((n + s.auxiliaryBytes : Nat) : Int) ≤ s.maximumWireBytes)
    (.budgetExceeded "response Content-Length exceeded the remaining wire byte budget")
  let body ← readBody (announced.getD 0) response.chunks []
  ofExcept (response.failure.elim (.ok ()) .error)
  let wireSize := max response.downloaded (announced.getD 0)
  modify fun s => {observeBody s wireSize body.length with
    received := s.received ++ [.ended (announced.getD 0) response.downloaded]}
  when call.allowEphemeralLoginCookies (modify fun s => {s with jar := []})
  let s ← get
  return {
    url := s.current
    response := if call.allowEphemeralLoginCookies then scrubCookieState response else response
    body
    wireBytes := wireSize + s.auxiliaryBytes
    redirectStatuses := s.redirectStatuses
    auxiliaryBytes := s.auxiliaryBytes
    cookieHandoff := s.ephemeralCookieUsed}

/-- The credential whose rejection as expired the answer reports. -/
def expiredCredential (s : Exchange) (credentialApplied : Bool) (response : Response) : Option CredentialMaterial :=
  s.credential.filter fun m => response.status = 401 ∧ credentialApplied ∧ m.capabilityId = "bearer_token" ∧
    response.reportsExpiredCredential

/-- What the answer leads to; `none` is another turn of the loop. -/
def handleResponse (a : HttpAdapter) (call : HttpCall) (h : Hop) (credentialApplied : Bool) (response : Response) :
    HttpM (Option HttpResult) := do
  let s ← get
  let status := response.status
  let returned := "target returned HTTP " ++ toString status
  if 300 ≤ status ∧ status ≤ 399 then do
    followRedirect a call h response
    return none
  else if status = 404 ∨ status = 410 then raise (.notFound returned)
  else match expiredCredential s credentialApplied response with
    | some credential => do
      retryExpired a h credential
      return none
    | none =>
      if status = 401 ∨ status = 403 then raise (.authRequired returned)
      else if ¬ (200 ≤ status ∧ status ≤ 299) then raise (.transport "HTTPStatusError" false)
      else do
        let result ← finish call response
        return some result

/-! ### The loop -/

/-- The current URL admitted, its credential settled and other origins' cookies gone. -/
def arrive (a : HttpAdapter) (call : HttpCall) (h : Hop) : HttpM Unit := do
  takeSlot a h
  evaluateCurrent a h
  settleCredential a call h
  enterUrl a
  withholdCookies a

/-- Robots, the request of the hop and its answer. -/
def exchangeCurrent (a : HttpAdapter) (call : HttpCall) (h : Hop) : HttpM (Option HttpResult) := do
  let robotsFetched ← checkRobots a h
  recordRateLimit a
  let (headers, credentialApplied) ← applyCredential a
  let (headers, cookies) ← applyCookies a call headers
  let response ← sendRequest h robotsFetched headers cookies
  handleResponse a call h credentialApplied response

/-- One turn of the loop. -/
def hop (a : HttpAdapter) (call : HttpCall) (h : Hop) : HttpM (Option HttpResult) := do
  arrive a call h
  exchangeCurrent a call h

/-- `for _ in range(n)`: each turn meets the next hop. -/
def hops (turn : Hop → HttpM (Option HttpResult)) : Nat → (Nat → Hop) → HttpM HttpResult
  | 0, _ => raise (.execution "redirect budget exhausted")
  | n + 1, world => do
    let result ← turn (world 0)
    match result with
    | some result => return result
    | none => hops turn n fun k => world (k + 1)

/-! ### HTTP/3 -/

/-- A request of the HTTP/3 client: no header of its own but the user agent. -/
def sendHttp3 (a : HttpAdapter) (h : Hop) : HttpM Http3Response := do
  modify fun s => {s with
    sent := s.sent ++ [{
      url := s.current, method := "GET", headers := [("User-Agent", a.userAgent)], credential := s.credential
      reply := h.http3.map Http3Response.response}]}
  ofExcept h.http3

/-- The checks of an HTTP/3 hop after the policy's. -/
def enterHttp3 (a : HttpAdapter) : HttpM Unit := do
  let s ← get
  when s.context.request.authenticationRef.isSome do
    recordOutcome "connector_auth" .dependencyMissing "auth"
      [("reason", .text "authenticated HTTP/3 transport is not implemented")]
    raise (.dependency "authenticated HTTP/3 transport is unavailable")
  let parts ← splitUrl a s.current
  check (parts.scheme = "https".toList) (.execution "HTTP/3 transport requires HTTPS")
  check (!s.visited.contains s.current) (.execution "redirect loop detected")
  modify fun s => {s with visited := s.current :: s.visited}
  check (!(s.validated.of a.codecs (parts.hostname a.codecs.toTables)).isEmpty)
    (.execution "HTTP/3 transport has no validated destination address")

/-- What an HTTP/3 answer leads to. -/
def handleHttp3 (a : HttpAdapter) (result : Http3Response) : HttpM (Option HttpResult) := do
  modify fun s => {s with
    received := s.received ++ [.whole result.body]
    transferred := s.transferred + result.body.length
    usage := s.usage.observeBytes (s.transferred + result.body.length) (s.transferred + result.body.length)}
  let s ← get
  check ((s.transferred : Int) ≤ s.maximumWireBytes && (s.transferred : Int) ≤ s.maximumDecompressedBytes)
    (.budgetExceeded "HTTP/3 response exceeded the remaining shared byte budget")
  let status := result.status
  let returned := "target returned HTTP " ++ toString status
  if [301, 302, 303, 307, 308].contains status then do
    modify fun s => {s with
      received := s.received ++ [.redirect status]
      redirectStatuses := s.redirectStatuses ++ [status]
      usage := s.usage.observeRedirects (s.redirectStatuses.length + 1)}
    check (!result.redirectUrl.isEmpty) (.execution "HTTP/3 redirect omitted its destination")
    let joined ← ofOption .value (urljoin a.codecs.toTables s.current.toList result.redirectUrl.toList)
    modify fun s => {s with previous := some s.current, current := String.ofList joined}
    return none
  else if status = 404 ∨ status = 410 then raise (.notFound returned)
  else if status = 401 ∨ status = 403 then raise (.authRequired returned)
  else if 400 ≤ status then raise (.execution returned)
  else return some {
    url := s.current, response := result.response, body := result.body, wireBytes := s.transferred
    redirectStatuses := s.redirectStatuses}

/-- One turn of the HTTP/3 loop. -/
def hopHttp3 (a : HttpAdapter) (h : Hop) : HttpM (Option HttpResult) := do
  takeSlot a h
  evaluateCurrent a h
  enterHttp3 a
  recordRateLimit a
  let s ← get
  check (0 < min (s.maximumWireBytes - s.transferred) (s.maximumDecompressedBytes - s.transferred))
    (.budgetExceeded "HTTP/3 response exhausted the shared byte budget")
  withinDeadline h.publisherElapsed
  let result ← sendHttp3 a h
  handleHttp3 a result

/-- Everything before the first HTTP/3 hop. -/
def prepareHttp3 (call : HttpCall) : HttpM Unit := do
  let s ← get
  check (s.context.request.intent ≠ "crawl") (.execution "HTTP/3 crawling is not available before v0.2")
  let maximumWireBytes := s.context.remainingBudget .bytes
  let maximumDecompressedBytes := s.context.remainingBudget .decompressedBytes
  check (0 < maximumWireBytes && 0 < maximumDecompressedBytes)
    (.budgetExceeded "HTTP/3 acquisition has no remaining byte budget")
  modify fun s => {s with maximumWireBytes, maximumDecompressedBytes, current := call.destination}

/-! ### The call -/

/-- What surrounds a call: the time it has taken when the client opens, and its hops. -/
structure World where
  elapsed : ℚ := 0
  hop : Nat → Hop

/-- `range(budget.redirects + 1)`. -/
def turns (ctx : ExecutionContext) : Nat := (ctx.request.budget.redirects + 1).toNat

/-- `_request`. -/
def request (a : HttpAdapter) (call : HttpCall) (world : World) : HttpM HttpResult := do
  check (!(call.allowEphemeralLoginCookies && call.credentialMode != .anonymous))
    (.execution "ephemeral login cookie handoff requires anonymous credential mode")
  let s ← get
  if s.context.request.outputRequirements.contains "http_3" then do
    check (!call.allowEphemeralLoginCookies)
      (.dependency "ephemeral login cookie handoff is unavailable over HTTP/3")
    prepareHttp3 call
    hops (hopHttp3 a) (turns s.context) world.hop
  else do
    prepare a call world.elapsed
    hops (hop a call) (turns s.context) world.hop

/-- The state a call begins in. -/
def Exchange.initial (ctx : ExecutionContext) (validated : ValidatedAddresses) (call : HttpCall) : Exchange :=
  {context := ctx, validated, current := call.destination}

/-- The state a call leaves behind, whether it returns or raises. -/
def exchange (a : HttpAdapter) (call : HttpCall) (world : World) (ctx : ExecutionContext)
    (validated : ValidatedAddresses) : Exchange :=
  (request a call world (.initial ctx validated call)).2

/-! ### A setting to run calls in -/

/-- Every address is public, every page may be fetched, all text is ASCII. -/
def sampleAdapter : HttpAdapter where
  policy := {codecs := asciiCodecs, isPublicAddress := fun _ => true, invalidUrl := id, sanitizeUrl := some}
  userAgent := "Fetech/0.4"
  httpxAgent := "python-httpx/0.28"
  acceptEncoding := "gzip, deflate"
  canFetch _ _ _ _ := some true

/-- One turn on which every host resolves and the server answers. -/
def answering (response : Response) : Hop :=
  {addresses := fun _ _ => ["93.184.216.34"], reply := .ok response}

/-- An answer that points elsewhere. -/
def redirecting (status : Nat) (location : String) : Response := {status, location := some location}

/-- A server that gives these answers, one a turn, and then empty pages. -/
def scripted (responses : List Response) : World :=
  {hop := fun k => answering (responses.getD k {status := 200})}

end Fetech.Http
