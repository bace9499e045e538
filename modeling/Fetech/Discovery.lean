import Fetech.Http.Execute
import Fetech.Lib.Gather
import Fetech.Lib.Loop
import Fetech.Variants

/-! Crawling a site within a budget (`fetech/adapters/discovery.py`).

The crawl is a `Program` over a `Crawl`: the local variables of `execute`, its context, and
beside them what came into the frontier (`queued`) and what was fetched (`issued`). A `Site`
is everything outside: the pages as the HTTP adapter brings them, batch by batch, their bodies
in the store, the search provider. It may be infinite and may change from one batch to the
next. A `Schedule` is the order in which the fetches of each batch end. -/
namespace Fetech.Discovery
open Lib Lib.Program Lib.Url Http

/-! ### What a crawl is about -/

/-- `_FrontierItem`. -/
structure FrontierItem where
  url : String
  depth : Nat
  parentUrl : Option String
  relation : String
  deriving DecidableEq

structure DiscoveredTarget where
  url : String
  depth : Nat
  parentUrl : Option String := none
  relation : String
  fetched : Bool := false
  accepted : Bool := false
  failureCode : Option String := none
  deriving DecidableEq

/-- A `CrawlReport` with its targets. -/
structure Report extends CrawlReport where
  targets : List DiscoveredTarget

/-- The adapter and its libraries: `feed` gives the events of a text and what the HTML parser
raises after them, `isWord` is `\w`, `searches` whether there is a search provider. -/
structure Crawler where
  codecs : Codecs
  feed : String → List MarkupEvent × Option HttpError
  isWord : Char → Bool
  batchSize : Int := 4
  searches : Bool := false

/-- What comes from outside: `page n` is `HTTPAdapter.execute` on a sub-context in the `n`th
batch, `body` is `cas.get`, `search` is `SearchProvider.discover`, `stored` is `cas.put` of an encoded
report and `artifactId` what its artifact is identified by. -/
structure Site where
  page : Nat → FetchRequest → Except HttpError Unit × ExecutionContext
  body : String → Int → Except HttpError (List UInt8)
  search : String → Int → Except HttpError (List String)
  stored : Report → Except HttpError (String × String × Nat)
  artifactId : Nat := 0

/-- The fetches of one batch, and the context they were issued in. -/
structure Batch where
  context : ExecutionContext
  items : List FrontierItem

/-- The order in which the tasks of the `n`th batch end. -/
structure Schedule where
  order : Nat → Nat → List Nat
  perm : ∀ n size, (order n size).Perm (List.range size)

/-- They end in the order in which they were started. -/
def Schedule.inOrder : Schedule := ⟨fun _ size => List.range size, fun _ _ => .refl _⟩

/-- The variables of `execute`. -/
structure Crawl where
  context : ExecutionContext
  seen : List String := []
  frontier : List FrontierItem := []
  targets : List DiscoveredTarget := []
  counters : Dict String Nat := ∅
  pagesChecked : Nat := 1
  pagesFetched : Nat := 1
  pagesFailed : Nat := 0
  maximumDepth : Nat := 0
  report : Option Report := none
  queued : List FrontierItem := []
  issued : List Batch := []

abbrev CrawlM := Program Crawl HttpError

/-- `type(error).__name__`. -/
def errorName : HttpError → String
  | .execution _ => "AdapterExecutionError"
  | .budgetExceeded _ => "AdapterBudgetExceededError"
  | .notFound _ => "AdapterNotFoundError"
  | .authRequired _ => "AdapterAuthRequiredError"
  | .authExpired _ => "AdapterAuthExpiredError"
  | .dependency _ => "AdapterDependencyError"
  | .policy (.blocked _ _) => "PolicyBlockedError"
  | .policy .value => "ValueError"
  | .deadline _ => "NetworkDeadlineExceededError"
  | .transport typeName _ => typeName
  | .unicode typeName => typeName
  | .value => "ValueError"
  | .cancelled => "CancelledError"
  | .other typeName => typeName

/-- An `AdapterExecutionError`. -/
def isExecutionError : HttpError → Bool
  | .execution _ | .budgetExceeded _ | .notFound _ | .authRequired _ | .authExpired _ => true
  | _ => false

/-- A `ValueError`. -/
def isValueError : HttpError → Bool
  | .policy .value | .unicode _ | .value => true
  | _ => false

variable (a : Crawler)

namespace Crawler

/-- `self.batch_size`. -/
def batch : Int := max 1 a.batchSize

def lower (text : String) : String := String.ofList (a.codecs.lower text.toList)

/-- `_site_host`; `none` is the `ValueError` of taking the URL apart. -/
def siteHost (url : String) : Option (List Char) :=
  (urlsplit a.codecs.toTables url.toList).map fun parts =>
    Variants.removePrefix "www.".toList (a.codecs.lower (parts.hostname a.codecs.toTables))

def join (base url : String) : Option String := (urljoin a.codecs.toTables base.toList url.toList).map String.ofList

end Crawler

/-! ### The links of a page -/

/-- How a link is named by its relation and its classes. -/
def relationOf (relations classes : List (List Char)) : String :=
  if relations.contains "next".toList then "next"
  else if relations.contains "prev".toList || relations.contains "previous".toList ||
    classes.contains "pagination".toList then "pagination"
  else if relations.contains "related".toList || classes.contains "related".toList then "related"
  else if relations.contains "tag".toList || relations.contains "category".toList || classes.contains "tag".toList ||
    classes.contains "category".toList then "category"
  else "internal"

/-- `_DiscoveryParser.handle_starttag`; `none` is the `ValueError` of the join. -/
def handleStarttag (baseUrl : String) (links : List (String × String)) : MarkupEvent → Option (List (String × String))
  | .startTag tag attrs =>
    if !(["a", "link"].contains (a.lower tag)) then some links
    else
      let values := attrs.foldl (fun (d : Dict String String) attr => d.set (a.lower attr.1) (attr.2.getD "")) ∅
      let href := values.getD "href" ""
      if href.isEmpty then some links
      else do
        let relations := words (a.lower (values.getD "rel" "")).toList
        let classes := words (a.lower (values.getD "class" "")).toList
        let candidate ← a.join baseUrl (String.ofList (strip href.toList))
        let parts ← urlsplit a.codecs.toTables candidate.toList
        if parts.scheme = "http".toList ∨ parts.scheme = "https".toList then
          return links ++ [(candidate, relationOf relations classes)]
        else return links
  | _ => some links

/-- The links of an HTML page with their relations. -/
def pageLinks (baseUrl text : String) : Except HttpError (List (String × String)) := do
  let (events, failure) := a.feed text
  let links ← Except.ofOption .value (events.foldlM (handleStarttag a baseUrl) [])
  match failure with
  | some err => .error err
  | none => return links

/-- A text begins with another one, of lower case letters, in any case. -/
def startsWithIgnoringCase (start text : List Char) : Bool := asciiLower (text.take start.length) == start

/-- What follows `<loc\b[^>]*>` at the start of a text. -/
def afterOpening (text : List Char) : Option (List Char) :=
  let rest := text.drop 4
  if startsWithIgnoringCase "<loc".toList text && !rest.head?.any a.isWord && rest.contains '>' then some (after '>' rest)
  else none

/-- What comes before and after the first `</loc>`. -/
def cutAtClosing : List Char → Option (List Char × List Char)
  | [] => none
  | ch :: text =>
    if startsWithIgnoringCase "</loc>".toList (ch :: text) then some ([], (ch :: text).drop 6)
    else (cutAtClosing text).map fun (inner, rest) => (ch :: inner, rest)

/-- The first group of each match of `_LOC`, the first `skip` characters being taken already. -/
def locations : Nat → List Char → List (List Char)
  | _, [] => []
  | skip + 1, _ :: text => locations skip text
  | 0, ch :: text =>
    match (afterOpening a (ch :: text)).bind cutAtClosing with
    | some (inner, rest) => inner :: locations (text.length - rest.length) text
    | none => locations 0 text

/-! ### The frontier -/

/-- `counters[name] += n`. -/
def count (name : String) (n : Nat) : CrawlM Unit :=
  modify fun s => {s with counters := s.counters.set name (s.counters.getD name 0 + n)}

/-- An item comes to the end of the frontier. -/
def Crawl.enter (s : Crawl) (item : FrontierItem) : Crawl :=
  {s with seen := s.seen ++ [item.url], frontier := s.frontier ++ [item], queued := s.queued ++ [item]}

/-- `_enqueue`. -/
def enqueue (rootHost : List Char) (maximumDepth : Int) (item : FrontierItem) : CrawlM Bool :=
  match normalizeUrl a.codecs item.url with
  | none => pure false
  | some candidate => do
    let s ← get
    if candidate ∈ s.seen then return false
    else if maximumDepth < item.depth then do
      count "depth_blocked" 1
      return false
    else do
      let host ← ofOption .value (a.siteHost candidate)
      if host ≠ rootHost then do
        count "domain_blocked" 1
        return false
      else do
        modify fun s => s.enter {item with url := candidate}
        return true

/-- A link of a page; `context` is the page's own. -/
def followLink (profile : Profile) (rootHost : List Char) (context : ExecutionContext) (pageUrl : String) (depth : Nat)
    (link : String × String) : CrawlM Unit := do
  let admitted ← enqueue a rootHost context.request.budget.crawlDepth ⟨link.1, depth + 1, some pageUrl, link.2⟩
  when (admitted = true) do
    count link.2 1
    let variants ← ofOption .value
      (Variants.generateVariants a.codecs link.1 context.request.language profile.region none)
    count "variants" (variants.length - 1)

/-- A location of a sitemap. -/
def followLocation (rootHost : List Char) (context : ExecutionContext) (pageUrl : String) (depth : Nat)
    (location : List Char) : CrawlM Unit :=
  match (a.join pageUrl (String.ofList (strip location))).bind (normalizeUrl a.codecs) with
  | none => pure ()
  | some candidate => do
    let admitted ← enqueue a rootHost context.request.budget.crawlDepth ⟨candidate, depth + 1, some pageUrl, "sitemap"⟩
    count "sitemap" (if admitted then 1 else 0)

/-- `latest_artifact(representation)`. -/
def latestArtifact (context : ExecutionContext) (representation : String) : Option Artifact :=
  context.artifacts.reverse.find? (·.representation = representation)

/-- `_discover_from_latest`. -/
def discoverFromLatest (site : Site) (profile : Profile) (rootHost : List Char) (context : ExecutionContext)
    (pageUrl : String) (depth : Nat) : CrawlM Unit :=
  match latestArtifact context "raw" with
  | none => pure ()
  | some artifact => do
    let body ← ofExcept (site.body artifact.casUri context.request.budget.decompressedBytes)
    let text := decodeUtf8 0 body
    if ["text/html", "application/xhtml+xml"].contains artifact.mediaType then do
      let links ← ofExcept (pageLinks a pageUrl (String.ofList text))
      forEach (followLink a profile rootHost context pageUrl depth) links
    else if ["application/xml", "text/xml"].contains artifact.mediaType || pageUrl.endsWith ".xml" then
      forEach (followLocation a rootHost context pageUrl depth) (locations a 0 text)
    else pure ()

/-! ### The fetches of a batch -/

/-- The share of a batch of what is left of a budget. -/
def share (budget consumed : Int) (batchSize : Nat) : Int := max 1 (max 1 (budget - consumed) / max 1 (batchSize : Int))

/-- The request a page is fetched with. -/
def subrequest (context : ExecutionContext) (batchSize : Nat) (item : FrontierItem) : FetchRequest :=
  let budget := context.request.budget
  {context.request with
    target := item.url
    intent := "retrieve"
    outputRequirements := ["raw_html"]
    budget := {budget with
      attempts := 1
      bytes := share budget.bytes (context.consumedBudget .bytes) batchSize
      decompressedBytes := share budget.decompressedBytes (context.consumedBudget .decompressedBytes) batchSize}}

/-- What `_fetch` returns. -/
structure Fetched where
  item : FrontierItem
  context : ExecutionContext
  error : Option HttpError

/-- `_fetch`: what the adapter raises is kept or goes on. -/
def fetch (site : Site) (turn : Nat) (context : ExecutionContext) (batchSize : Nat) (item : FrontierItem) :
    Except HttpError Fetched :=
  let request := subrequest context batchSize item
  let (outcome, subcontext) := site.page turn request
  let subcontext := {subcontext with request}
  match outcome with
  | .ok () => .ok ⟨item, subcontext, none⟩
  | .error (.policy (.blocked reason decisions)) =>
    .ok ⟨item, {subcontext with policyDecisions := subcontext.policyDecisions ++ decisions},
      some (.policy (.blocked reason decisions))⟩
  | .error err => if isExecutionError err || isValueError err then .ok ⟨item, subcontext, some err⟩ else .error err

/-- `_merge_context`. -/
def mergeContext (context sub : ExecutionContext) : ExecutionContext :=
  {context with
    resources := context.resources ++ sub.resources
    artifacts := context.artifacts ++ sub.artifacts
    attempts := context.attempts ++ sub.attempts
    capabilityOutcomes := context.capabilityOutcomes ++ sub.capabilityOutcomes
    policyDecisions := context.policyDecisions ++ sub.policyDecisions
    diagnostics := context.diagnostics ++ sub.diagnostics}

/-- The target of an item, its URLs shown without their secrets; `none` is the `ValueError`. -/
def shownTarget (request : FetchRequest) (item : FrontierItem) : Option DiscoveredTarget := do
  let url ← sanitizeUrlForRequest a.codecs item.url request
  let parentUrl ← (item.parentUrl.filter (!·.isEmpty)).mapM fun parent => sanitizeUrlForRequest a.codecs parent request
  return {url, depth := item.depth, parentUrl, relation := item.relation}

/-- What is made of a fetched page. -/
def absorb (site : Site) (profile : Profile) (rootHost : List Char) (fetched : Fetched) : CrawlM Unit := do
  let item := fetched.item
  modify fun s => {s with
    pagesChecked := s.pagesChecked + 1
    context := mergeContext s.context fetched.context
    maximumDepth := max s.maximumDepth item.depth}
  let s ← get
  if fetched.error.isSome || fetched.context.resources.isEmpty then do
    modify fun s => {s with pagesFailed := s.pagesFailed + 1}
    let target ← ofOption .value (shownTarget a s.context.request item)
    let failureCode := some ((fetched.error.map errorName).getD "empty_response")
    modify fun s => {s with targets := s.targets ++ [{target with failureCode}]}
  else do
    modify fun s => {s with pagesFetched := s.pagesFetched + 1}
    let accepted := (latestArtifact fetched.context "raw").any (·.quality.accepted)
    let target ← ofOption .value (shownTarget a s.context.request item)
    modify fun s => {s with targets := s.targets ++ [{target with fetched := true, accepted}]}
    discoverFromLatest a site profile rootHost fetched.context item.url item.depth

/-- Items come off the front of the frontier, to be fetched together. -/
def Crawl.issue (s : Crawl) (n : Nat) : Crawl :=
  {s with frontier := s.frontier.drop n, issued := s.issued ++ [⟨s.context, s.frontier.take n⟩]}

/-- One turn of the loop of `execute`, and whether there may be another. -/
def turn (site : Site) (profile : Profile) (schedule : Schedule) (rootHost : List Char) (maximumPages : Int) :
    CrawlM Bool := do
  let s ← get
  if s.frontier.isEmpty || maximumPages ≤ s.pagesChecked then return false
  else
    let remainingSlots := min a.batch
      (min (maximumPages - s.pagesChecked) (s.context.request.budget.attempts - s.context.attempts.length))
    if remainingSlots ≤ 0 then return false
    else do
      let items := s.frontier.take remainingSlots.toNat
      modify fun s => s.issue remainingSlots.toNat
      let number := s.issued.length
      let fetches := items.map (fetch site number s.context items.length)
      let results ← ofExcept (gather fetches (schedule.order number items.length))
      forEach (absorb a site profile rootHost) results
      return true

/-! ### The whole crawl -/

/-- What `execute` keeps from its start. -/
structure Start where
  attempt : FetchAttempt
  attemptIndex : Nat
  root : String
  rootHost : List Char
  maximumPages : Int

/-- A result of the search provider. -/
def followResult (s : Start) (maximumDepth : Int) (candidate : String) : CrawlM Unit := do
  let before ← get
  let _ ← enqueue a s.rootHost maximumDepth ⟨candidate, 1, some s.root, "search"⟩
  let after ← get
  count "search" (if before.frontier.length < after.frontier.length then 1 else 0)

/-- The results of the search provider, if it may be asked. -/
def searchDiscovery (site : Site) (profile : Profile) (s : Start) : CrawlM Unit := do
  let state ← get
  let request := state.context.request
  if a.searches && profile.policyProfile == "allow_search_discovery" && profile.privacyProfile == "public" &&
      request.authenticationRef.isNone then do
    modify fun s => {s with counters := s.counters.set "search_configured" 1}
    match site.search (String.ofList s.rootHost) (min 20 s.maximumPages) with
    | .ok results => forEach (followResult a s request.budget.crawlDepth) results
    | .error err =>
      if isExecutionError err then
        modify fun s => {s with context :=
          s.context.recordOutcome "search_provider_discovery" .failed "discovery" [("reason", .text (errorName err))]}
      else raise err
  else when (a.searches = true) do
    let reason := Detail.text "search discovery requires an explicit public, unauthenticated policy"
    modify fun s => {s with context :=
      s.context.recordOutcome "search_provider_discovery" .blocked "discovery" [("reason", reason)]}

/-- The counters a crawl starts with. -/
def initialCounters : Dict String Nat :=
  ["internal", "related", "pagination", "next", "category", "sitemap", "variants", "domain_blocked", "depth_blocked",
    "search", "search_configured"].foldl (fun counters name => counters.set name 0) ∅

/-- The first links: the site's map, those of the root, and the results of the search. -/
def firstLinks (site : Site) (profile : Profile) (start : Start) (maximumDepth : Int) (sitemap : String) : CrawlM Unit := do
  let _ ← enqueue a start.rootHost maximumDepth ⟨sitemap, 0, some start.root, "sitemap"⟩
  let s ← get
  discoverFromLatest a site profile start.rootHost s.context start.root 0
  searchDiscovery a site profile start

/-- `execute` up to its loop. -/
def begin (site : Site) (profile : Profile) (capabilityId : String) : CrawlM Start := do
  check (capabilityId = "depth_limited_crawl") (.execution ("discovery adapter cannot execute " ++ capabilityId))
  let s ← get
  check (!s.context.resources.isEmpty && (latestArtifact s.context "raw").isSome)
    (.execution "crawl requires an acquired root resource")
  let request := s.context.request
  let sanitizedDestination ← ofOption .value (sanitizeUrlForRequest a.codecs request.target request)
  let attempt : FetchAttempt := {capabilityId, sanitizedDestination, status := .running}
  let attemptIndex := s.context.attempts.length
  modify fun s => {s with context := {s.context with attempts := s.context.attempts ++ [attempt]}}
  let root ← ofOption .value (normalizeUrl a.codecs request.target)
  let rootHost ← ofOption .value (a.siteHost root)
  let maximumPages := min request.budget.crawlPages (1 + max 0 (request.budget.attempts - (attemptIndex + 1)))
  let url ← ofOption .value (sanitizeUrlForRequest a.codecs root request)
  let accepted := s.context.artifacts.getLast?.any (·.quality.accepted)
  modify fun s => {s with
    seen := [root]
    targets := [{url, depth := 0, relation := "root", fetched := true, accepted}]
    counters := initialCounters}
  let sitemap ← ofOption .value ((a.join root "/sitemap.xml").bind (normalizeUrl a.codecs))
  let start := {attempt, attemptIndex, root, rootHost, maximumPages}
  firstLinks a site profile start request.budget.crawlDepth sitemap
  return start

/-- What `_record_outcomes` observes, by counter. -/
def observations : List (String × String) :=
  [("sitemap_discovery", "sitemap"), ("internal_link_discovery", "internal"), ("related_link_discovery", "related"),
    ("pagination_discovery", "pagination"), ("next_page_discovery", "next"), ("category_tag_discovery", "category"),
    ("candidate_url_expansion", "variants")]

/-- `_record_outcomes`; `none` is the `ValueError` of taking the root apart. -/
def recordOutcomes (report : Report) : CrawlM Unit := do
  let s ← get
  let counted name := Detail.int (s.counters.getD name 0)
  let record capabilityId status details : CrawlM Unit :=
    modify fun s => {s with context := s.context.recordOutcome capabilityId status "discovery" details}
  forEach (fun o => record o.1 (if s.counters.getD o.2 0 = 0 then .notApplicable else .observed) [("count", counted o.2)])
    observations
  record "robots_discovery" .applied [("policy_checked", .flag true)]
  record "depth_limited_crawl" .applied
    [("maximum_depth", .int report.maximumDepthReached), ("blocked", counted "depth_blocked")]
  record "domain_limited_crawl" .applied [("blocked", counted "domain_blocked")]
  let parts ← ofOption .value (urlsplit a.codecs.toTables report.rootUrl.toList)
  record "official_domain_discovery" .observed
    [("host", .text (String.ofList (parts.hostname a.codecs.toTables)))]
  let t ← get
  when (¬ t.context.capabilityOutcomes.any (·.capabilityId = "search_provider_discovery")) do
    record "search_provider_discovery" (if s.counters.getD "search" 0 = 0 then .notApplicable else .observed)
      [("count", counted "search"), ("configured", .flag (s.counters.getD "search_configured" 0 != 0))]

/-- `execute` after its loop. -/
def finish (site : Site) (start : Start) : CrawlM Unit := do
  let s ← get
  let rootUrl ← ofOption .value (sanitizeUrlForRequest a.codecs start.root s.context.request)
  let report : Report := {
    rootUrl, targets := s.targets, pagesFetched := s.pagesFetched, pagesFailed := s.pagesFailed
    maximumDepthReached := s.maximumDepth, frontierOmitted := s.frontier.length}
  let (casUri, sha256, size) ← ofExcept (site.stored report)
  let quality : QualityAssessment := {
    pageState := .ok, score := if s.pagesFetched = 0 then 0 else 1, accepted := decide (0 < s.pagesFetched)}
  let resource ← ofOption (.other "IndexError") s.context.resources.head?
  let summary : Artifact := {
    artifactId := site.artifactId, role := "primary", representation := "crawl_report"
    mediaType := "application/json", casUri, sha256, size, sourceResourceId := resource.resourceId
    extractorVersion := "builtin-crawl/0.2", quality}
  let attempt := {start.attempt with status := .succeeded, finished := true, artifactIds := [summary.artifactId]}
  modify fun s => {s with
    report := some report
    context := {s.context with
      artifacts := s.context.artifacts ++ [summary]
      attempts := s.context.attempts.set start.attemptIndex attempt
      accepted := quality.accepted
      crawlReport := some report.toCrawlReport}}
  recordOutcomes a report

/-- `execute`, its loop for at most so many turns: `none` if these are not enough. -/
def execute (site : Site) (profile : Profile) (schedule : Schedule) (turns : Nat) (capabilityId : String)
    (context : ExecutionContext) : Option (Except HttpError Unit × Crawl) :=
  match begin a site profile capabilityId {context} with
  | (.error err, s) => some (.error err, s)
  | (.ok start, s) =>
    match loop (turn a site profile schedule start.rootHost start.maximumPages) turns s with
    | none => none
    | some (.error err, t) => some (.error err, t)
    | some (.ok (), t) => some (finish a site start t)

end Fetech.Discovery
