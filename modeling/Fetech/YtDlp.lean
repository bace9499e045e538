import Fetech.Auth
import Fetech.Lib.JsonFaults
import Fetech.Lib.Query
import Fetech.Lib.Utf8
import Fetech.Media.Subtitles

/-! YouTube metadata from an isolated worker (`fetech/yt_dlp.py`): the locators that are accepted,
and what a worker prints.

A locator is read as a host, a path and a few query parameters and written again; the worker gets
what was written. What the worker prints is not trusted, so all of it is checked and projected. -/
namespace Fetech.YtDlp
open Lib Lib.Url Lib.Except

/-- The resources a worker reports to have used. -/
structure Usage where
  networkBytes : Nat
  decompressedBytes : Nat
  redirects : Nat
  deriving DecidableEq, Repr

/-- What is raised: an `AdapterExecutionError`, a `YTDLPProviderError` or a
`YTDLPBudgetExceededError`, which are kinds of it, or one of Python's own. -/
inductive Raised where
  | execution (message : String)
  | provider (message : String) (usage : Usage)
  | budgetExceeded (message : String) (usage : Usage)
  | valueError
  | typeError
  | keyError
  | recursionError
  deriving DecidableEq, Repr

/-- `isinstance(exc, AdapterExecutionError)` -/
def Raised.isExecution : Raised → Bool
  | .execution _ | .provider .. | .budgetExceeded .. => true
  | _ => false

/-! ### Locators -/

def youtubeHosts : List String := ["youtu.be", "youtube.com", "www.youtube.com", "m.youtube.com", "music.youtube.com"]

def allowedQuery : List String := ["index", "list", "start", "t", "v"]

def maximumTargetBytes : Nat := 2048

/-- `_VIDEO_ID` -/
def isVideoId (s : List Char) : Bool :=
  1 ≤ s.length && s.length ≤ 64 && s.all fun c => isAlpha c || isDigit c || c == '_' || c == '-'

/-- `_QUERY_VALUE` -/
def isQueryValue (s : List Char) : Bool :=
  1 ≤ s.length && s.length ≤ 256 &&
    s.all fun c => isAlpha c || isDigit c || c == '_' || c == '.' || c == ':' || c == '-'

/-- `_CONTROL_CHARACTERS`, in a locator. -/
def isControlChar (c : Char) : Bool := c.val < 0x20 || c.val == 0x7f

/-- The non-empty segments of a path. -/
def segments (path : List Char) : List (List Char) := (path.splitOn '/').filter (!·.isEmpty)

/-- `dict(pairs).get(key)`: the last value counts. -/
def lastValue (key : String) (pairs : List (List Char × List Char)) : Option (List Char) :=
  (pairs.reverse.find? (·.1 = key.toList)).map Prod.snd

variable (c : Codecs)

/-- A target, taken apart, and its host, which is one of those of YouTube. -/
def readOrigin (target : List Char) : Except Raised (SplitResult × List Char) := do
  let invalid := .execution "YouTube metadata target is invalid"
  require (!target.isEmpty && (encodeUtf8 target).length ≤ maximumTargetBytes && !target.any isControlChar) invalid
  let parsed ← ofOption invalid (urlsplit c.toTables target)
  let encoded ← ofOption invalid (c.idna (parsed.hostname c.toTables))
  let host := rstrip '.' (c.lower encoded)
  let port ← ofOption invalid parsed.port
  require (c.lower parsed.scheme = "https".toList ∧ String.ofList host ∈ youtubeHosts ∧ '@' ∉ parsed.netloc ∧
    (port = none ∨ port = some 443) ∧ parsed.fragment = [])
    (.execution "built-in yt-dlp metadata requires an exact HTTPS YouTube origin")
  return (parsed, host)

/-- The parameters that are kept of a query. -/
def readPairs (query : List Char) : Except Raised (List (List Char × List Char)) := do
  let tooMany := .execution "YouTube metadata query exceeds the field bound"
  require (query.count '&' + 1 ≤ 16) tooMany
  let pairs := parseQsl query
  require (pairs.length ≤ 8) tooMany
  let safePairs := pairs.filter fun pair => String.ofList pair.1 ∈ allowedQuery
  require (safePairs.all fun pair => isQueryValue pair.2) (.execution "YouTube metadata query value is invalid")
  return safePairs

/-- The path as it is written again, and the video it names. -/
def readPath (host path : List Char) (safePairs : List (List Char × List Char)) :
    Except Raised (List Char × List Char) :=
  if host = "youtu.be".toList then do
    let short := .execution "short YouTube URL must identify one video"
    match segments path with
    | [id] =>
      require (isVideoId id) short
      return ('/' :: id, id)
    | _ => throw short
  else if path = "/watch".toList then do
    let id := (lastValue "v" safePairs).getD []
    require (isVideoId id) (.execution "YouTube watch URL must identify one video")
    return (path, id)
  else do
    let unsupported := .execution "unsupported YouTube video locator"
    match segments path with
    | [kind, id] =>
      require (String.ofList kind ∈ ["embed", "live", "shorts"] ∧ isVideoId id) unsupported
      return ('/' :: kind ++ '/' :: id, id)
    | _ => throw unsupported

/-- What is read of a target. -/
structure Locator where
  host : List Char
  path : List Char
  safePairs : List (List Char × List Char)
  expectedVideoId : List Char
  deriving DecidableEq

def readLocator (target : List Char) : Except Raised Locator := do
  let (parsed, host) ← readOrigin c target
  let safePairs ← readPairs parsed.query
  let (path, expectedVideoId) ← readPath host (if parsed.path.isEmpty then ['/'] else parsed.path) safePairs
  require ((lastValue "v" safePairs).all (· = expectedVideoId))
    (.execution "YouTube locator contains conflicting video ids")
  return {host, path, safePairs, expectedVideoId}

/-- A locator, put together. -/
def Locator.parts (l : Locator) : SplitResult where
  scheme := "https".toList
  netloc := l.host
  path := l.path
  query := urlencode l.safePairs
  fragment := []

/-- `_canonical_youtube_video_url` -/
def canonicalYoutubeVideoUrl (target : List Char) : Except Raised (List Char) := do
  let l ← readLocator c target
  return urlunsplit l.parts

/-- `s.strip("/")` -/
def stripSlashes (s : List Char) : List Char := rstrip '/' (s.dropWhile (· == '/'))

/-- `_video_id_from_url` -/
def videoIdFromUrl (target : List Char) : Except Raised (List Char) := do
  let parsed ← ofOption .valueError (urlsplit c.toTables target)
  if parsed.hostname c.toTables = "youtu.be".toList then return stripSlashes parsed.path
  else if parsed.path = "/watch".toList then ofOption .keyError (lastValue "v" (parseQsl parsed.query))
  else return afterLast '/' (rstrip '/' parsed.path)

/-- `_authoritative_youtube_video_url` -/
def authoritativeYoutubeVideoUrl (target : List Char) : Except Raised (List Char) := do
  let canonical ← canonicalYoutubeVideoUrl c target
  let parsed ← ofOption .valueError (urlsplit c.toTables canonical)
  let query ←
    if parsed.path = "/watch".toList then do
      let id ← videoIdFromUrl c canonical
      pure (urlencode [("v".toList, id)])
    else pure []
  return urlunsplit {parsed with query, fragment := []}

/-! ### Metadata -/

section
variable {φ : Type} (isBounded : φ → Bool)

/-- `_CONTROL_CHARACTERS` -/
def isControl (c : CodePoint) : Bool := c.val < 0x20 || c.val = 0x7f

/-- `_bounded_text`; a lone surrogate is a `UnicodeEncodeError`. -/
def boundedText (value : Text) (maximum : Nat) : Except Raised Text := do
  let cleaned := value.filter (!isControl ·)
  let encoded ← ofOption .valueError (Utf8.encode cleaned)
  return if encoded.length ≤ maximum then cleaned else Utf8.decodeIgnore (encoded.take maximum)

/-- `_safe_scalar`; `isBounded` says of a number whether it is finite and at most `1e308` from zero. -/
def safeScalar (maximum : Nat) : JsonValue φ → Except Raised (Option (JsonValue φ))
  | .bool b => return some (.bool b)
  | .int n => return if n.natAbs ≤ 9223372036854775807 then some (.int n) else none
  | .float x => return if isBounded x then some (.float x) else none
  | .string s => do
    let text ← boundedText s maximum
    return some (.string text)
  | _ => return none

/-- The safe scalars under some keys, each with a bound of its own, in their order. -/
def safeFields (document : List (Text × JsonValue φ)) (keys : List (String × Nat)) :
    Except Raised (List (Text × JsonValue φ)) := do
  let found ← keys.mapM fun (key, maximum) => do
    let value ← safeScalar isBounded maximum ((JsonValue.get? document key).getD .null)
    return value.map fun v => (Text.ofString key, v)
  return found.reduceOption

/-- `_SCALAR_FIELDS`, with their bounds. -/
def scalarFields : List (String × Nat) :=
  ["id", "title", "description", "uploader", "uploader_id", "channel", "channel_id", "duration", "upload_date",
    "availability", "live_status", "extractor", "ext", "width", "height", "view_count", "like_count", "age_limit"].map
      fun key => (key, if key = "description" then 8192 else 2048)

def projectList (document : List (Text × JsonValue φ)) (key : String) : Except Raised (List (Text × JsonValue φ)) :=
  match JsonValue.get? document key with
  | some (.array items) => do
    let safe ← (items.take 100).mapM (safeScalar isBounded 256)
    return [(Text.ofString key, .array safe.reduceOption)]
  | _ => return []

def projectChapters (document : List (Text × JsonValue φ)) : Except Raised (List (Text × JsonValue φ)) :=
  match JsonValue.get? document "chapters" with
  | some (.array items) => do
    let chapters := (items.take 500).filterMap fun
      | .object fields => some fields
      | _ => none
    let safe ← chapters.mapM fun fields => safeFields isBounded fields [("title", 512), ("start_time", 512), ("end_time", 512)]
    return [(Text.ofString "chapters", .array (safe.map .object))]
  | _ => return []

def projectLanguages (document : List (Text × JsonValue φ)) (key : String) : Except Raised (List (Text × JsonValue φ)) :=
  match JsonValue.get? document key with
  | some (.object captions) => do
    let names ← (captions.take 200).mapM fun caption => boundedText caption.1 64
    let languages := (names.filter (!·.isEmpty)).insertionSort (· ≤ ·)
    return [(Text.ofString key, .object (languages.dedup.map fun language => (language, .array [])))]
  | _ => return []

def maximumFormatCount : Nat := 10000

def projectFormats (document : List (Text × JsonValue φ)) : JsonValue φ :=
  match JsonValue.get? document "formats" with
  | some (.array items) => .array (List.replicate (min items.length maximumFormatCount) .null)
  | _ => .array []

/-- The text of a locator. -/
def textOf (url : List Char) : Text := url.map CodePoint.ofChar

/-- A title with something in it. -/
def isTitle : Option (JsonValue φ) → Bool
  | some (.string title) => !(Media.strip title).isEmpty
  | _ => false

/-- `value == s`, of a text. -/
def isText (s : Text) : Option (JsonValue φ) → Bool
  | some (.string t) => t = s
  | _ => false

/-- `_project_metadata` -/
def projectMetadata (document : JsonValue φ) (sourceUrl : List Char) : Except Raised (List (Text × JsonValue φ)) :=
  match document with
  | .object document => do
    let expectedVideoId ← videoIdFromUrl c sourceUrl
    require (isText (textOf expectedVideoId) (JsonValue.get? document "id") && isTitle (JsonValue.get? document "title"))
      (.execution "yt-dlp metadata does not match the requested video")
    let scalars ← safeFields isBounded document scalarFields
    let categories ← projectList isBounded document "categories"
    let tags ← projectList isBounded document "tags"
    let chapters ← projectChapters isBounded document
    let subtitles ← projectLanguages document "subtitles"
    let captions ← projectLanguages document "automatic_captions"
    let webpageUrl ← authoritativeYoutubeVideoUrl c sourceUrl
    return scalars ++ categories ++ tags ++ chapters ++ subtitles ++ captions ++
      [(Text.ofString "formats", projectFormats document), (Text.ofString "webpage_url", .string (textOf webpageUrl))]
  | _ => .error (.execution "yt-dlp metadata must be an object")

/-! ### What a worker prints -/

/-- What is taken from the platform: its tables for text, its floating-point numbers, which of them are
bounded, and how deep the interpreter gets into a text, which depends on the hooks it calls on the way. -/
structure Platform (φ : Type) where
  codecs : Codecs
  floats : JsonText.Floats φ
  isBounded : φ → Bool
  recursionLimit : Text → Nat

/-- The bounds on a worker, and those of the request that they come from. -/
structure Limits where
  maximumNetworkBytes : Nat
  maximumRedirects : Nat
  requestNetworkLimit : Nat
  requestRedirectLimit : Nat

structure Response (φ : Type) where
  metadata : List (Text × JsonValue φ)
  networkBytes : Nat
  decompressedBytes : Nat
  redirects : Nat

/-- `_reject_json_constant` and `_reject_duplicate_keys` -/
def workerHooks : JsonText.Hooks φ where
  constant _ := none
  object pairs := if (pairs.map Prod.fst).Nodup then some pairs else none

/-- What is printed, read as JSON. -/
def loadOutput (p : Platform φ) (payload : List UInt8) : Except JsonText.Fault (JsonValue φ) := do
  let text ← ofOption .malformed (Utf8.decode payload)
  JsonText.loadsOrFault p.floats workerHooks (p.recursionLimit text) text

/-- `_usage_integer` -/
def usageInteger (document : List (Text × JsonValue φ)) (name : String) : Except Raised Nat :=
  match JsonValue.get? document name with
  | some (.int n) =>
    if 0 ≤ n then .ok n.toNat else .error (.execution ("yt-dlp worker " ++ name ++ " is invalid"))
  | _ => .error (.execution ("yt-dlp worker " ++ name ++ " is invalid"))

def workerSchema : String := "fetech.yt_dlp.worker.v1"

def hasStatus (document : List (Text × JsonValue φ)) (status : String) : Bool :=
  isText (Text.ofString status) (JsonValue.get? document "status")

/-- The keys, the schema and the usage of an envelope. -/
def readUsage (limits : Limits) (document : List (Text × JsonValue φ)) : Except Raised Usage := do
  let outcome := if hasStatus document "succeeded" then "metadata" else "failure_code"
  require (JsonValue.hasKeys document ["schema", "status", "network_bytes", "decompressed_bytes", "redirects", outcome] &&
      isText (Text.ofString workerSchema) (JsonValue.get? document "schema"))
    (.execution "yt-dlp metadata worker output has an invalid schema")
  let networkBytes ← usageInteger document "network_bytes"
  let decompressedBytes ← usageInteger document "decompressed_bytes"
  let redirects ← usageInteger document "redirects"
  require (networkBytes ≤ limits.maximumNetworkBytes ∧ decompressedBytes ≤ limits.maximumNetworkBytes ∧
      decompressedBytes = networkBytes ∧ redirects ≤ limits.maximumRedirects)
    (.execution "yt-dlp metadata worker exceeded its process limits")
  return {networkBytes, decompressedBytes, redirects}

/-- `value in {…}`, of texts: a list or an object has no hash. -/
def memberOf (texts : List String) : JsonValue φ → Except Raised Bool
  | .string s => return texts.any fun text => s = Text.ofString text
  | .array _ => throw .typeError
  | .object _ => throw .typeError
  | _ => return false

/-- What is raised when the worker reports a failure. -/
def raiseFailure (limits : Limits) (usage : Usage) (failureCode : JsonValue φ) : Except Raised (Response φ) := do
  let isCode name := isText (Text.ofString name) (some failureCode)
  let budget ← memberOf ["network_budget_exhausted", "redirect_budget_exhausted"] failureCode
  if budget then
    let requestLimited :=
      (isCode "network_budget_exhausted" ∧ limits.maximumNetworkBytes = limits.requestNetworkLimit) ∨
        (isCode "redirect_budget_exhausted" ∧ limits.maximumRedirects = limits.requestRedirectLimit)
    if requestLimited then throw (.budgetExceeded "yt-dlp metadata exhausted the request budget" usage)
    else throw (.provider "yt-dlp metadata exceeded its provider safety limit" usage)
  else do
    let known ← memberOf ["extraction_failed", "output_limit_exhausted", "policy_blocked"] failureCode
    if known then
      throw (.provider
        (if isCode "policy_blocked" then "yt-dlp network policy blocked metadata acquisition"
        else if isCode "output_limit_exhausted" then "yt-dlp metadata exceeded the configured output limit"
        else "yt-dlp could not acquire metadata for the requested video") usage)
    else throw (.execution "yt-dlp metadata worker returned an invalid failure code")

/-- `except (TypeError, ValueError, AdapterExecutionError)` -/
def Raised.isTranslated : Raised → Bool
  | .typeError | .valueError => true
  | raised => raised.isExecution

/-- The metadata of a success, its errors reported with the usage. -/
def succeed (p : Platform φ) (sourceUrl : List Char) (usage : Usage) (metadata : JsonValue φ) :
    Except Raised (Response φ) :=
  match projectMetadata p.codecs p.isBounded metadata sourceUrl with
  | .ok projected => .ok ⟨projected, usage.networkBytes, usage.decompressedBytes, usage.redirects⟩
  | .error raised =>
    if raised.isTranslated then .error (.provider "yt-dlp metadata worker returned an invalid result" usage)
    else .error raised

/-- `_decode_worker_envelope` -/
def decodeWorkerEnvelope (p : Platform φ) (payload : List UInt8) (sourceUrl : List Char) (limits : Limits) :
    Except Raised (Response φ) :=
  match loadOutput p payload with
  -- Of what `json.loads` raises, a `ValueError` is translated and a `RecursionError` is not.
  | .error .recursion => .error .recursionError
  | .error _ => .error (.execution "yt-dlp metadata worker returned malformed output")
  | .ok (.object document) => do
    let usage ← readUsage limits document
    if hasStatus document "failed" then
      raiseFailure limits usage ((JsonValue.get? document "failure_code").getD .null)
    else if hasStatus document "succeeded" then
      succeed p sourceUrl usage ((JsonValue.get? document "metadata").getD .null)
    else throw (.execution "yt-dlp metadata worker returned an invalid status")
  | .ok _ => .error (.execution "yt-dlp metadata worker output must be an object")

end

end Fetech.YtDlp
