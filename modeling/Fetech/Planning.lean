import Fetech.Registry
import Fetech.Security
import Fetech.Lib.Except

/-! Target classification and the construction of a plan (`fetech/planning.py`).

`plan` builds the nodes stage by stage, in the order the executor will take them, and
each stage depends on nodes of the stages before it. A request is one that was
validated when it was made. -/
namespace Fetech.Planning
open Lib.Url Lib.Except

/-! ### Capabilities by family -/

def documentExtensions : List String :=
  [".csv", ".docx", ".epub", ".md", ".markdown", ".pdf", ".pptx", ".txt", ".xls", ".xlsx"]

def mediaExtensions : List String :=
  [".aac", ".flac", ".gif", ".jpeg", ".jpg", ".m4a", ".mp3", ".mp4", ".png", ".tif", ".tiff", ".wav", ".webm", ".webp"]

def archiveExtensions : List String := [".7z", ".bz2", ".gz", ".rar", ".tar", ".tgz", ".zip"]

def apiExtensions : List String := [".json", ".xml"]

def documentCapabilities : List String :=
  ["pdf", "scanned_pdf", "docx", "pptx", "xlsx", "csv", "txt", "markdown", "json_file", "xml_file", "zip_archive",
    "github_raw", "git_lfs", "dataset_file"]

def mediaCapabilities : List String :=
  ["image", "image_metadata", "image_ocr", "screenshot_to_text", "video_metadata", "audio_metadata", "transcript",
    "youtube_metadata", "podcast_feed", "thumbnail", "exif_metadata"]

def cacheCapabilities : List String :=
  ["search_snippet_cache", "search_cache", "search_engine_cache_adapter", "alternate_search_cache_adapter",
    "web_archive", "internet_archive_snapshot", "local_snapshot", "previous_successful_snapshot", "cdn_copy",
    "browser_cache", "rag_document_cache"]

def preAcquisitionCacheCapabilities : List String :=
  ["previous_successful_snapshot", "search_engine_cache_adapter", "alternate_search_cache_adapter", "web_archive",
    "internet_archive_snapshot", "cdn_copy"]

def postAcquisitionCacheCapabilities : List String :=
  ["search_snippet_cache", "search_cache", "local_snapshot", "browser_cache", "rag_document_cache"]

def readerCapabilities : List String :=
  ["raw_html", "clean_text", "main_article", "boilerplate_removal", "mozilla_readability", "trafilatura",
    "newspaper_style", "mercury_style", "jina_reader", "browser_reader_mode"]

def browserCapabilities : List String :=
  ["playwright", "puppeteer", "selenium", "cdp", "headless_dom", "visible_text", "screenshot", "wait_for_selector",
    "wait_for_network_idle", "scroll_to_load", "click_expand", "cookie_banner_handling", "lazy_loading",
    "javascript_rendering", "spa_route_handling"]

def browserEngines : List String := ["playwright", "puppeteer", "selenium", "cdp"]

def apiCapabilityOrder : List String :=
  ["rest", "graphql", "json_endpoint", "xml_endpoint", "rss", "atom", "sitemap_xml", "openapi_discovery", "github_api",
    "semantic_scholar_api", "arxiv_api", "openreview_api", "crossref_openalex_api"]

def authSessionCapabilities : List String := ["login_session", "oauth", "sso", "private_workspace"]

def schedulableKinds : List CapabilityKind :=
  [.operation, .variantGenerator, .extractor, .formatHandler, .connector, .storageStrategy]

def httpEmbeddedAuthCapabilities : List String := ["api_key", "bearer_token", "connector_auth", "cookie_session"]

def browserEmbeddedCapabilities : List String := browserCapabilities.filter (!browserEngines.contains ·)

def httpCapabilities : List String := ["http_get", "http_head", "http_post", "browser_header_http", "range_request"]

/-! ### Classification -/

/-- `PurePosixPath(path).suffix`. -/
def suffix (path : List Char) : String :=
  let name := (((path.splitOn '/').filter fun part => !part.isEmpty && part != ['.']).getLast?).getD []
  let extension := afterLast '.' name
  if name.contains '.' && !(beforeLast '.' name).isEmpty && !extension.isEmpty then
    String.ofList ('.' :: extension)
  else ""

/-- The suffix of a target's path. -/
def targetSuffix (c : Codecs) (target : String) : Option String := do
  let parts ← urlsplit c.toTables target.toList
  return suffix (c.lower parts.path)

/-- `_NAMED_API_ROUTES`. -/
def namedApiRoutes : List (String × List (String × List String)) :=
  [ ("github_api", [("api.github.com", ["/"])]),
    ("semantic_scholar_api", [("api.semanticscholar.org", ["/graph/v1", "/recommendations/v1", "/datasets/v1"])]),
    ("arxiv_api", [("export.arxiv.org", ["/api/query"])]),
    ("openreview_api", [("api.openreview.net", ["/"]), ("api2.openreview.net", ["/"])]),
    ("crossref_openalex_api",
      [ ("api.crossref.org", ["/works", "/journals", "/members", "/funders", "/prefixes", "/types", "/licenses"]),
        ("api.openalex.org",
          ["/works", "/authors", "/sources", "/institutions", "/topics", "/publishers", "/funders", "/concepts",
            "/autocomplete", "/text"]) ]) ]

/-- Whether `prefixes` of a named API take in the path. -/
def underRoot (path : List Char) (root : String) : Bool :=
  root == "/" || path == root.toList || (rstrip '/' root.toList ++ ['/']).isPrefixOf path

/-- `_matches_named_origin`; a `ValueError` on the way is a `False`. -/
def matchesNamedOrigin (c : Codecs) (capabilityId : String) (routes : List (String × List String))
    (sourceUrl : String) : Bool :=
  let found : Option Bool := do
    let parts ← urlsplit c.toTables sourceUrl.toList
    let port ← parts.port
    let encoded ← c.idna (parts.hostname c.toTables)
    let host := String.ofList (rstrip '.' (c.casefold encoded))
    let scheme := String.ofList (c.casefold parts.scheme)
    let validOrigin := (scheme = "https" ∧ (port = none ∨ port = some 443)) ∨
      (capabilityId = "arxiv_api" ∧ scheme = "http" ∧ (port = none ∨ port = some 80))
    let path := if parts.path.isEmpty then ['/'] else parts.path
    return decide validOrigin && !parts.netloc.contains '@' &&
      routes.any fun route => host == route.1 && route.2.any (underRoot path)
  found.getD false

def detectNamedApi (c : Codecs) (sourceUrl : String) : Option String :=
  (namedApiRoutes.find? fun api => matchesNamedOrigin c api.1 api.2 sourceUrl).map (·.1)

inductive Family where
  | cache | archive | document | media | api | web
  deriving DecidableEq, Repr

def overlaps (requested of : List String) : Bool := requested.any of.contains

/-- `none` is the `ValueError` of `urlsplit`. -/
def classifyTarget (c : Codecs) (target : String) (requested : List String) : Option Family := do
  let suffix ← targetSuffix c target
  return if overlaps requested cacheCapabilities && requested.all cacheCapabilities.contains then .cache
  else if overlaps requested documentCapabilities then
    if requested.contains "zip_archive" then .archive else .document
  else if overlaps requested mediaCapabilities then .media
  else if overlaps requested apiCapabilityOrder || (detectNamedApi c target).isSome then .api
  else if documentExtensions.contains suffix || overlaps requested ["document", "tables", "ocr", "slides"] then .document
  else if mediaExtensions.contains suffix ||
    overlaps requested ["audio", "frames", "image", "subtitles", "transcript", "video"] then .media
  else if archiveExtensions.contains suffix || requested.contains "archive" then .archive
  else if apiExtensions.contains suffix || overlaps requested ["json", "xml", "feed"] then .api
  else .web

/-! ### The stages of a plan -/

/-- Why `plan` raises. -/
inductive PlanError where
  /-- The `ValueError` of `normalize_url` or `urlsplit`. -/
  | invalidTarget
  | manySessions
  | manyApis
  | ragWithoutCleanText
  | browserCacheNotHtml
  | browserCacheWithoutPlaywright
  | httpDenied
  | missingDependencies (node : String) (ids : List String)
  | denied (ids : List String)
  | missing (ids : List String)
  /-- The `KeyError` of the registry. -/
  | unknownCapability (id : String)
  | mismatch
  deriving DecidableEq

/-- `capability.replace("_", "-")`. -/
def dashed (capability : String) : String :=
  String.ofList (capability.toList.map fun ch => if ch = '_' then '-' else ch)

/-- The id of node `index` of a family of nodes. -/
def indexedId (stem : String) (index : Nat) (capability : String) : String :=
  stem ++ toString index ++ "-" ++ dashed capability

/-- Nodes for capabilities in order, each a fallback for the one before it. -/
def chain (stem : String) (node : String → String → Option String → PlanNode) :
    Nat → Option String → List String → List PlanNode
  | _, _, [] => []
  | index, previous, capability :: rest =>
    let id := indexedId stem index capability
    node id capability previous :: chain stem node (index + 1) (some id) rest

/-- Nodes for capabilities in order. -/
def family (stem : String) (node : String → String → PlanNode) (capabilities : List String) : List PlanNode :=
  capabilities.mapIdx fun index capability => node (indexedId stem index capability) capability

/-- A request as `plan` works on it: the target normalized, the outputs canonical. -/
structure Draft where
  request : FetchRequest
  target : String
  family : Family

namespace Draft
variable (d : Draft)

def requests (capability : String) : Bool := d.request.outputRequirements.contains capability

/-- What of the request's budget a node reserves. -/
def bytes : String × ℚ := ("bytes", d.request.budget.bytes)

def decompressedBytes : String × ℚ := ("decompressed_bytes", d.request.budget.decompressedBytes)

def browserSeconds : String × ℚ := ("browser_seconds", d.request.budget.browserSeconds)

def archiveBudget : Finset (String × ℚ) :=
  {d.bytes, d.decompressedBytes, ("archive_members", (d.request.budget.archiveMembers : ℚ)),
    ("archive_ratio", d.request.budget.archiveRatio)}

def crawlBudget : Finset (String × ℚ) :=
  {("attempts", (d.request.budget.attempts : ℚ)), ("crawl_pages", (d.request.budget.crawlPages : ℚ)),
    ("crawl_depth", (d.request.budget.crawlDepth : ℚ))}

def httpCapability : String :=
  (["http_head", "http_post", "browser_header_http", "range_request"].find? d.requests).getD "http_get"

def baseNodes : List PlanNode :=
  [ {id := "normalize", capabilityId := "url_normalisation", adapter := "core"},
    {id := "policy", capabilityId := "url_validation", adapter := "core", dependencies := ["normalize"]
     reservedBudget := {("deadline_seconds", 2)}} ]

def requestedSessions : List String := authSessionCapabilities.filter d.requests

/-- The session node; `plan` rejects a request for more than one. -/
def sessionNodes : List PlanNode :=
  (d.requestedSessions.take 1).map fun capability =>
    { id := "auth-" ++ dashed capability, capabilityId := capability, adapter := "auth"
      dependencies := ["policy"], retry := {maximum := 0} }

def httpDependency : String := (d.sessionNodes.getLast?.map (·.id)).getD "policy"

def requestedCache : List String := cacheCapabilities.filter d.requests

/-- A search cache is looked up through a search engine's. -/
def requestedPreCache (capability : String) : Bool :=
  let needsSearch := (d.requests "search_snippet_cache" || d.requests "search_cache") &&
    !(d.requests "search_engine_cache_adapter" || d.requests "alternate_search_cache_adapter")
  d.requestedCache.contains capability || (needsSearch && capability == "search_engine_cache_adapter")

/-- What the look-up of the last snapshot is told. -/
def lookupParameters : Finset (String × String) :=
  {("cache_operation", "lookup"), ("representation", "raw"), ("parser_version", "httpx/0.28")}

def preCacheNodes (capabilities : List String) : List PlanNode :=
  chain "cache-pre-" (fun id capability previous =>
    { id, capabilityId := capability, adapter := "cache", dependencies := [d.httpDependency]
      fallbackFor := previous, stopOnAcceptance := true, reservedBudget := {d.bytes}
      parameters := if capability = "previous_successful_snapshot" then lookupParameters else ∅ }) 0 none capabilities

def httpNode (preCache : List PlanNode) : PlanNode where
  id := "http"
  capabilityId := d.httpCapability
  adapter := "http"
  dependencies := [d.httpDependency]
  fallbackFor :=
    if d.family = .cache ∧ ¬(d.requests "browser_cache" ∨ d.requests "rag_document_cache") then
      preCache.getLast?.map (·.id)
    else none
  retry := {maximum := if d.httpCapability = "http_post" then 0 else 2}
  stopOnAcceptance := [Family.api, .document, .media, .archive].contains d.family
  requiresApproval := d.httpCapability == "http_post"
  reservedBudget := {d.bytes}

def csrfNodes : List PlanNode :=
  if d.requests "csrf_token" then
    [{ id := "auth-csrf-token", capabilityId := "csrf_token", adapter := "auth", dependencies := ["http"]
       retry := {maximum := 0} }]
  else []

def csrfDependency : String := (d.csrfNodes.getLast?.map (·.id)).getD "http"

def formNodes : List PlanNode :=
  if d.requests "form_submit" then
    [{ id := "auth-form-submit", capabilityId := "form_submit", adapter := "auth"
       dependencies := [d.csrfDependency], retry := {maximum := 0}, requiresApproval := true }]
  else []

def acquiredDependency : String := (d.formNodes.getLast?.map (·.id)).getD d.csrfDependency

/-- `_reader_nodes`. -/
def readerNodes (dependency : String) : List PlanNode :=
  let requested := readerCapabilities.filter d.requests
  let selected := if requested.isEmpty then ["clean_text", "main_article"] else requested
  chain "reader-" (fun id capability previous =>
    { id, capabilityId := capability, adapter := "reader", dependencies := [dependency]
      parallelGroup := some "static-readers", fallbackFor := previous, stopOnAcceptance := true }) 0 none selected

def alternativesNodes : List PlanNode :=
  if d.request.authenticationRef.isNone then
    [{ id := "alternatives", capabilityId := "candidate_url_expansion", adapter := "variants"
       dependencies := [d.acquiredDependency] }]
  else []

def browserNode (terminalReader : String) : PlanNode :=
  let requestedBrowser := browserCapabilities.filter d.requests
  { id := "browser"
    capabilityId := (browserEngines.find? requestedBrowser.contains).getD "playwright"
    adapter := "browser"
    dependencies := [terminalReader]
    fallbackFor := if requestedBrowser.isEmpty then some terminalReader else none
    stopOnAcceptance := true
    reservedBudget := {d.browserSeconds} }

/-- Alternatives, readers and, where it is implemented, the browser. -/
def webNodes (browserAvailable : Bool) : List PlanNode :=
  let readerDependency := (d.alternativesNodes.getLast?.map (·.id)).getD d.acquiredDependency
  let readers := d.readerNodes readerDependency
  let terminalReader := (readers.getLast?.map (·.id)).getD ""
  d.alternativesNodes ++ readers ++ if browserAvailable then [d.browserNode terminalReader] else []

/-- `_document_capabilities`. -/
def documentCapabilities (suffix : String) : List String :=
  let requested := Planning.documentCapabilities.filter fun capability =>
    d.requests capability && capability != "zip_archive"
  if !requested.isEmpty then requested
  else
    let known := [ (".md", "markdown"), (".markdown", "markdown"), (".json", "json_file"), (".xml", "xml_file"),
      (".csv", "csv"), (".docx", "docx"), (".epub", "dataset_file"), (".pdf", "pdf"), (".pptx", "pptx"),
      (".txt", "txt"), (".xls", "dataset_file"), (".xlsx", "xlsx") ]
    [(known.lookup suffix).getD "dataset_file"]

/-- `_media_capabilities`. -/
def mediaCapabilities (suffix : String) : List String :=
  let requested := Planning.mediaCapabilities.filter d.requests
  if !requested.isEmpty then requested
  else if [".gif", ".jpeg", ".jpg", ".png", ".tif", ".tiff", ".webp"].contains suffix then ["image_metadata"]
  else if [".aac", ".flac", ".m4a", ".mp3", ".wav"].contains suffix then ["audio_metadata"]
  else ["video_metadata"]

/-- `_api_capability`. -/
def apiCapability (c : Codecs) (suffix : String) : Except PlanError String :=
  match apiCapabilityOrder.filter d.requests with
  | [] => .ok ((detectNamedApi c d.target).getD (if suffix = ".xml" then "xml_endpoint" else "json_endpoint"))
  | [capability] => .ok capability
  | _ => .error .manyApis

/-- The nodes of the family, after acquisition. -/
def mainNodes (c : Codecs) (browserAvailable : Option Bool) (suffix : String) : Except PlanError (List PlanNode) :=
  if d.request.intent = "crawl" then
    .ok [{ id := "crawl", capabilityId := "depth_limited_crawl", adapter := "discovery"
           dependencies := [d.acquiredDependency], stopOnAcceptance := true, reservedBudget := d.crawlBudget }]
  else
    match d.family with
    | .web =>
      if d.httpCapability = "http_head" then .ok []
      else match browserAvailable with
        | some available => .ok (d.webNodes available)
        | none => .error (.unknownCapability "playwright")
    | .document => .ok (Planning.family "document-" (fun id capability =>
        { id, capabilityId := capability, adapter := "documents", dependencies := [d.acquiredDependency]
          parallelGroup := some "document-extractors", stopOnAcceptance := true, reservedBudget := d.archiveBudget }) (d.documentCapabilities suffix))
    | .media => .ok (Planning.family "media-" (fun id capability =>
        { id, capabilityId := capability, adapter := "media", dependencies := [d.acquiredDependency]
          parallelGroup := some "media-extractors", stopOnAcceptance := true
          reservedBudget := {d.bytes, d.decompressedBytes} }) (d.mediaCapabilities suffix))
    | .archive => .ok [{ id := "archive", capabilityId := "zip_archive", adapter := "archive"
                         dependencies := [d.acquiredDependency], stopOnAcceptance := true
                         reservedBudget := d.archiveBudget }]
    | .api => (d.apiCapability c suffix).map fun capability =>
        [{ id := "structured", capabilityId := capability, adapter := "api"
           dependencies := [d.acquiredDependency], stopOnAcceptance := true }]
    | .cache => .ok []

/-- `terminal_dependency`: the last of the family's nodes. -/
def terminalDependency (main : List PlanNode) : String := (main.getLast?.map (·.id)).getD d.acquiredDependency

/-- The last node so far that produces what a cache stores. -/
def producer (nodes : List PlanNode) (adapter : String) (capabilities : List String) : Option PlanNode :=
  nodes.reverse.find? fun node => node.adapter == adapter && capabilities.contains node.capabilityId

def ragProducerNode (main : List PlanNode) : PlanNode where
  id := "cache-producer-rag-document"
  capabilityId := "clean_text"
  adapter := "reader"
  dependencies := [if d.family = .document then d.terminalDependency main else d.acquiredDependency]
  reservedBudget := {d.decompressedBytes}

def browserProducerNode : PlanNode where
  id := "cache-producer-browser-render"
  capabilityId := "playwright"
  adapter := "browser"
  dependencies := [d.acquiredDependency]
  reservedBudget := {d.browserSeconds, d.decompressedBytes}

/-- What a cache strategy after acquisition depends on. -/
def postCacheDependency (preCache main : List PlanNode) (ragProducer browserProducer : Option String)
    (capability : String) : String :=
  let lookup := fun adapter : String => preCache.find? fun node => node.capabilityId == adapter
  let searchNode := (lookup "search_engine_cache_adapter").or (lookup "alternate_search_cache_adapter")
  let produced :=
    if capability = "rag_document_cache" then ragProducer
    else if capability = "browser_cache" then browserProducer
    else if capability = "search_snippet_cache" ∨ capability = "search_cache" then searchNode.map PlanNode.id
    else none
  produced.getD (d.terminalDependency main)

def postCacheNodes (dependency : String → String) : List PlanNode :=
  Planning.family "cache-post-" (fun id capability =>
    { id, capabilityId := capability, adapter := "cache", dependencies := [dependency capability]
      parallelGroup := some "cache-strategies", reservedBudget := {d.bytes} }) (postAcquisitionCacheCapabilities.filter d.requests)

end Draft

/-! ### The planner -/

/-- A `DeterministicPlanner`, with the platform's text tables and the function of
`fetech/security.py` that makes the public spelling of a normalized target, with or
without its query's values. -/
structure Planner where
  registry : CapabilityRegistry
  codecs : Codecs
  sanitizeUrl : String → Bool → String

namespace Planner
variable (p : Planner)

def sanitizeUrlForRequest (url : String) (request : FetchRequest) : String :=
  p.sanitizeUrl url request.authenticationRef.isSome

def canonicalOutputRequirement (capabilityId : String) : String := (p.registry.resolveId capabilityId).getD capabilityId

/-- The request's capability policy on a canonical id. -/
def allows (request : FetchRequest) (canonical : String) : Bool :=
  !request.denyCapabilities.contains canonical &&
    (request.allowCapabilities.isEmpty || request.allowCapabilities.contains canonical ||
      ("url_normalisation" :: "url_validation" :: httpCapabilities).contains canonical)

/-- `_permitted`. -/
def permitted (capabilityId : String) (request : FetchRequest) : Except PlanError Bool :=
  match p.registry.resolveId capabilityId with
  | none => .error (.unknownCapability capabilityId)
  | some canonical => .ok (allows request canonical)

/-- The elements whose capability is permitted. -/
def filterPermitted {α : Type} (request : FetchRequest) (capability : α → String) :
    List α → Except PlanError (List α)
  | [] => .ok []
  | a :: rest => do
    let keep ← p.permitted (capability a) request
    let kept ← filterPermitted request capability rest
    return if keep then a :: kept else kept

/-- The node whose text a RAG cache stores, and the node added for it. -/
def ragProducer (d : Draft) (nodes main : List PlanNode) : Except PlanError (Option String × List PlanNode) :=
  if !d.requests "rag_document_cache" then .ok (none, [])
  else do
    require (← p.permitted "clean_text" d.request) .ragWithoutCleanText
    match Draft.producer nodes "reader" ["clean_text"] with
    | some node => return (some node.id, [])
    | none => return (some (d.ragProducerNode main).id, [d.ragProducerNode main])

/-- The node whose rendering a browser cache stores, and the node added for it. -/
def browserProducer (d : Draft) (nodes : List PlanNode) : Except PlanError (Option String × List PlanNode) :=
  if !d.requests "browser_cache" then .ok (none, [])
  else do
    let plain ← ofOption .invalidTarget (classifyTarget p.codecs d.target [])
    let bytes := [Family.document, .media, .archive]
    require (!bytes.contains d.family && !bytes.contains plain) .browserCacheNotHtml
    match Draft.producer nodes "browser" browserEngines with
    | some node => return (some node.id, [])
    | none =>
      require (← p.permitted "playwright" d.request) .browserCacheWithoutPlaywright
      return (some d.browserProducerNode.id, [d.browserProducerNode])

/-- All nodes, before the capability policy is applied. -/
def draftNodes (d : Draft) : Except PlanError (List PlanNode) := do
  require (d.requestedSessions.length ≤ 1) .manySessions
  let preCache := d.preCacheNodes
    (← p.filterPermitted d.request id (preAcquisitionCacheCapabilities.filter d.requestedPreCache))
  let acquired := Draft.baseNodes ++ d.sessionNodes ++ preCache ++ [d.httpNode preCache] ++ d.csrfNodes ++ d.formNodes
  let suffix ← ofOption .invalidTarget (targetSuffix p.codecs d.target)
  let main ← d.mainNodes p.codecs ((p.registry.get "playwright").map (·.implementationAvailable)) suffix
  let (ragId, rag) ← p.ragProducer d (acquired ++ main) main
  let (browserId, browser) ← p.browserProducer d (acquired ++ main ++ rag)
  return acquired ++ main ++ rag ++ browser ++
    d.postCacheNodes (d.postCacheDependency preCache main ragId browserId)

def sorted (ids : List String) : List String := ids.eraseDups.mergeSort fun a b => decide (a ≤ b)

/-- `_validate_nodes`. -/
def validateNodes (nodes : List PlanNode) : List PlanNode → Except PlanError Unit
  | [] => .ok ()
  | node :: rest => do
    require (p.registry.get node.capabilityId).isSome (.unknownCapability node.capabilityId)
    let missing := node.dependencies.filter fun id => !(nodes.map (·.id)).contains id
    require missing.isEmpty (.missingDependencies node.id (sorted missing))
    validateNodes nodes rest

/-- Whether a requested output has to be in the plan as a node of its own. -/
def mustBeScheduled (d : Draft) (nodes : List PlanNode) (capabilityId : String) : Option CapabilityManifestEntry := do
  guard !(capabilityId == "clean_text" && d.request.outputRequirements == ["clean_text"] &&
    (d.family != .web || d.request.intent == "crawl"))
  let entry ← p.registry.get capabilityId
  guard (schedulableKinds.contains entry.kind)
  guard !(browserEmbeddedCapabilities.contains entry.id && nodes.any (·.adapter == "browser"))
  guard !(httpEmbeddedAuthCapabilities.contains entry.id && nodes.any (·.adapter == "http"))
  return entry

/-- `_validate_requested_schedulable_outputs`; the id of an entry is canonical. -/
def validateRequestedSchedulableOutputs (d : Draft) (nodes : List PlanNode) : Except PlanError Unit := do
  let scheduled := nodes.filterMap fun node => p.registry.resolveId node.capabilityId
  let required := (d.request.outputRequirements.filterMap (p.mustBeScheduled d nodes)).map (·.id)
  let denied := required.filter fun id => !allows d.request id
  let missing := required.filter fun id => allows d.request id && !scheduled.contains id
  require denied.isEmpty (.denied (sorted denied))
  require missing.isEmpty (.missing (sorted missing))

/-- The request as `plan` works on it. -/
def draft (request : FetchRequest) : Except PlanError {d : Draft // d.request.budget = request.budget} := do
  let target ← ofOption .invalidTarget (normalizeUrl p.codecs request.target)
  let outputs := (request.outputRequirements.map p.canonicalOutputRequirement).eraseDups
  let family ← ofOption .invalidTarget (classifyTarget p.codecs target outputs)
  return ⟨{request := {request with target, outputRequirements := outputs}, target, family}, rfl⟩

/-- `bind_execution_request`: the request the adapters see, normalized once more; the
two public requests can differ in their targets only. -/
def bind (d : Draft) (hbudget : d.request.budget.Valid) (nodes : List PlanNode) : Except PlanError FetchPlan := do
  let published := {d.request with target := p.sanitizeUrlForRequest d.target d.request}
  let target ← ofOption .invalidTarget (normalizeUrl p.codecs d.target)
  let normalized := {d.request with target}
  require (p.sanitizeUrlForRequest target normalized == published.target) .mismatch
  return {
    request := published, nodes, executionRequest := normalized
    bound := rfl, validBudget := hbudget }

/-- `plan` on a request whose budget was validated. -/
def plan (request : FetchRequest) (hbudget : request.budget.Valid) : Except PlanError FetchPlan := do
  let ⟨d, hd⟩ ← p.draft request
  let nodes ← p.draftNodes d
  let filtered ← p.filterPermitted d.request (·.capabilityId) nodes
  require (filtered.any (httpCapabilities.contains ·.capabilityId)) .httpDenied
  p.validateNodes filtered filtered
  p.validateRequestedSchedulableOutputs d filtered
  p.bind d (hd ▸ hbudget) filtered

end Planner

end Fetech.Planning
