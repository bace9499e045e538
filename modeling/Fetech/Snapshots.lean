import Fetech.Documents
import Fetech.Lib.Except
import Fetech.Lib.Json
import Fetech.Models
import Fetech.Storage
import Mathlib.Data.String.Basic

/-! Cache keys and the snapshot store (`CacheKey` of `fetech/storage.py`, `SnapshotStore` of
`fetech/adapters/cache.py`).

A key is hashed to a partition; each store adds one metadata file to it and never looks at
the others, each lookup reads them all again. The file at `root/d[:2]/d/i.json` is
known here by the pair of the key digest `d` and the snapshot id `i`. Nothing else touches
these files, and content that the content store has once given back it gives back again.
What pydantic, `json` and `datetime` do is a `Platform`. -/
namespace Fetech.Snapshots
open Lib Lib.Except Storage

/-! ### Cache keys -/

/-- The request with the further fields a cache key reads. -/
structure SnapshotRequest extends FetchRequest where
  policyProfile : String := "default"
  region : Option String := none

inductive SnapshotError
  | integrity (message : String)
  | value (message : String)
  | overflow
  deriving DecidableEq, Repr

def utf8 (s : String) : Bytes := Url.encodeUtf8 s.toList

structure CacheKey where
  url : String
  representation : String
  authenticationScope : String
  policyProfile : String
  language : String
  parserVersion : String
  vary : List (String × String) := []
  region : String := ""
  deriving DecidableEq

/-- The derived partition of an authentication reference. -/
def authenticationCacheScope (H : Hash) : Option String → Except SnapshotError String
  | none => .ok "public"
  | some reference =>
    if (Url.strip reference.toList).isEmpty then .error (.value "authentication reference cannot be blank")
    else .ok ("auth:sha256:" ++ H.hexdigest (utf8 "fetech-authentication-scope-v1\x00" ++ utf8 reference))

def CacheKey.forRequest (H : Hash) (request : SnapshotRequest) (url representation parserVersion : String)
    (vary : List (String × String) := []) : Except SnapshotError CacheKey := do
  let authenticationScope ← authenticationCacheScope H request.authenticationRef
  return {
    url, representation, authenticationScope, policyProfile := request.policyProfile,
    language := request.language.getD "", parserVersion, region := request.region.getD "", vary}

namespace CacheKey

/-- The document of a key, its fields in sorted order. -/
def document (k : CacheKey) : Json.Value := .object [
  ("authentication_scope".toList, .string k.authenticationScope.toList),
  ("language".toList, .string k.language.toList),
  ("parser_version".toList, .string k.parserVersion.toList),
  ("policy_profile".toList, .string k.policyProfile.toList),
  ("region".toList, .string k.region.toList),
  ("representation".toList, .string k.representation.toList),
  ("url".toList, .string k.url.toList),
  ("vary".toList, .array (k.vary.map fun pair => .array [.string pair.1.toList, .string pair.2.toList]))]

def encoded (k : CacheKey) : Bytes := Url.encodeUtf8 (Json.dumps k.document)

def digest (H : Hash) (k : CacheKey) : String := H.hexdigest k.encoded

end CacheKey

/-! ### What the libraries do -/

abbrev Fields := List (String × Document)

/-- A `datetime`, with the time it is in UTC if it has a timezone, in microseconds. -/
inductive Moment
  | naive
  | aware (utc : Int)
  deriving DecidableEq

section Json
variable (isLiteral : String → Bool)

mutual
/-- What `json` writes and reads back: numbers and truth values as it writes them, no foreign
objects, a dictionary by its keys in order, as `sort_keys` has them. -/
def isJson : Document → Bool
  | .null | .text _ => true
  | .scalar literal => isLiteral literal
  | .object _ => false
  | .list items => areJson items
  | .mapping fields => decide ((fields.map Prod.fst).Pairwise (· < ·)) && fieldsJson fields

def areJson : List Document → Bool
  | [] => true
  | item :: rest => isJson item && areJson rest

def fieldsJson : List (String × Document) → Bool
  | [] => true
  | (_, child) :: rest => isJson child && fieldsJson rest
end

end Json

/-- `json.dumps(…, sort_keys=True).encode("utf-8")` and `json.loads` -/
structure JsonCodec where
  isLiteral : String → Bool
  literal_bool : ∀ b : Bool, isLiteral (if b then "true" else "false") = true
  dumps : Document → Bytes
  loads : Bytes → Option Document
  loads_dumps : ∀ d, isJson isLiteral d = true → loads (dumps d) = some d

/-- The contract models `Resource` and `Artifact`: `model_dump(mode="json")`, its keys in
order, `model_validate` and `model_copy`. -/
structure Contracts (R A : Type) extends JsonCodec where
  dumpResource : R → Document
  validateResource : Document → Option R
  resourceId : R → String
  canonicalUrl : R → String
  requestedUrl : R → String
  authorityUrl : R → Option String
  withUrls : R → String → String → Option String → R
  dumpArtifact : A → Fields
  validateArtifact : Fields → Option A
  casUri : A → String
  sha256 : A → String
  size : A → Nat
  sourceResourceId : A → String
  json_resource : ∀ r, isJson isLiteral (dumpResource r) = true
  json_artifact : ∀ a, isJson isLiteral (.mapping (dumpArtifact a)) = true
  validate_dumpResource : ∀ r, validateResource (dumpResource r) = some r
  validate_dumpArtifact : ∀ a, validateArtifact (dumpArtifact a) = some a
  dump_casUri : ∀ a, (dumpArtifact a).lookup "cas_uri" = some (.text (casUri a))
  dump_sha256 : ∀ a, (dumpArtifact a).lookup "sha256" = some (.text (sha256 a))
  dump_size : ∀ a, (dumpArtifact a).lookup "size" = some (.scalar (toString (size a)))
  validate_casUri : ∀ f a s, validateArtifact f = some a → f.lookup "cas_uri" = some (.text s) → casUri a = s
  validate_sha256 : ∀ f a s, validateArtifact f = some a → f.lookup "sha256" = some (.text s) → sha256 a = s
  validate_size : ∀ f a n, validateArtifact f = some a → f.lookup "size" = some (.scalar (toString n)) → size a = n

def minTime : Int := -62135596800000000

/-- The last microsecond of the year 9999. -/
def maxTime : Int := 253402300799999999

structure Platform (R A : Type) extends Contracts R A where
  hash : Hash
  codecs : Codecs
  isoformat : Int → String
  fromisoformat : String → Option Moment
  from_isoformat : ∀ t, minTime ≤ t → t ≤ maxTime → fromisoformat (isoformat t) = some (.aware t)
  str : Document → String
  str_text : ∀ s, str (.text s) = s

/-- `cas.get` at one time. -/
abbrev Cas := String → Int → Except StorageError Bytes

/-! ### Times -/

def inRange (t : Int) : Except SnapshotError Int := if minTime ≤ t ∧ t ≤ maxTime then .ok t else .error .overflow

/-- `_require_aware` and `astimezone(UTC)`. -/
def toUtc (label : String) : Moment → Except SnapshotError Int
  | .naive => .error (.value (label ++ " must include a timezone"))
  | .aware t => inRange t

def optionalUtc (label : String) : Option Moment → Except SnapshotError (Option Int)
  | none => .ok none
  | some moment => (toUtc label moment).map some

/-- `t + timedelta(seconds=…)` -/
def plusSeconds (t seconds : Int) : Except SnapshotError Int := inRange (t + seconds * 1000000)

/-! ### Records -/

def cacheCapabilities : List String :=
  ["search_snippet_cache", "search_cache", "search_engine_cache_adapter", "alternate_search_cache_adapter",
    "web_archive", "internet_archive_snapshot", "local_snapshot", "previous_successful_snapshot", "cdn_copy",
    "browser_cache", "rag_document_cache"]

def maxTtlSeconds : Int := 365 * 24 * 60 * 60

def maxMetadataBytes : Nat := 1000000

def maxRecordsPerKey : Nat := 10000

structure SnapshotRecord (R A : Type) where
  snapshotId : String
  keyDigest : String
  authenticationScope : String
  sourceCapability : String
  resource : R
  artifact : A
  storedAt : Int
  expiresAt : Option Int
  etag : Option String := none
  lastModified : Option String := none
  successful : Bool := true

inductive CacheDisposition
  | miss | fresh | staleWhileRevalidate | revalidate
  deriving DecidableEq, Repr

structure CacheLookup (R A : Type) where
  disposition : CacheDisposition
  record : Option (SnapshotRecord R A) := none
  usable : Bool := false
  requiresRevalidation : Bool := false

def requireDigest (value label : String) : Except SnapshotError Unit :=
  require (isDigest value) (.integrity (label ++ " digest is invalid"))

def validateValidator (value : Option String) (label : String) : Except SnapshotError Unit :=
  require (value.all fun v => !(Url.strip v.toList).isEmpty && decide ((utf8 v).length ≤ 8192) &&
    !v.toList.contains '\r' && !v.toList.contains '\n') (.value (label ++ " cache validator is invalid"))

section Store
variable {R A : Type} (P : Platform R A)

/-- `_verify_artifact` -/
def verifyArtifact (cas : Cas) (artifact : A) : Except SnapshotError Unit := do
  require (P.casUri artifact == casPrefix ++ P.sha256 artifact)
    (.integrity "artifact CAS URI and SHA-256 disagree")
  let body ← match cas (P.casUri artifact) (P.size artifact) with
    | .ok body => .ok body
    | .error (.casIntegrity _) | .error (.casReadLimit _) =>
      .error (.integrity "snapshot artifact size or SHA-256 verification failed")
    | .error _ => .error (.integrity "snapshot artifact is unavailable or exceeds its bound")
  require (body.length == P.size artifact) (.integrity "snapshot artifact size does not match metadata")
  require (P.hash.hexdigest body == P.sha256 artifact) (.integrity "snapshot artifact SHA-256 verification failed")

/-- `sanitize_url_for_request` -/
def sanitizeFor (request : SnapshotRequest) (url : String) : Except SnapshotError String :=
  ofOption (.value "URL cannot be parsed") (sanitizeUrl P.codecs (sanitizeQuery P.codecs) url request.authenticationRef.isSome)

def sanitizedResource (request : SnapshotRequest) (resource : R) : Except SnapshotError R := do
  let canonicalUrl ← sanitizeFor P request (P.canonicalUrl resource)
  let requestedUrl ← sanitizeFor P request (P.requestedUrl resource)
  let authorityUrl ← match P.authorityUrl resource with
    | none => .ok none
    | some url => if url.isEmpty then .ok none else (sanitizeFor P request url).map some
  return P.withUrls resource canonicalUrl requestedUrl authorityUrl

def sanitizedArtifact (request : SnapshotRequest) (artifact : A) : Except SnapshotError A :=
  ofOption (.value "artifact is not valid")
    (P.validateArtifact (outputFields P.codecs request.authenticationRef.isSome (P.dumpArtifact artifact)))

def snapshotText (keyDigest sha256 now sourceCapability : String) : String :=
  "fetech-snapshot-v1\x00" ++ keyDigest ++ "\x00" ++ sha256 ++ "\x00" ++ now ++ "\x00" ++ sourceCapability

def optionalText : Option String → Document
  | none => .null
  | some s => .text s

/-- `_record_document`, its fields in sorted order. -/
def recordDocument (r : SnapshotRecord R A) : Document := .mapping [
  ("artifact", .mapping (P.dumpArtifact r.artifact)),
  ("authentication_scope", .text r.authenticationScope),
  ("etag", optionalText r.etag),
  ("expires_at", optionalText (r.expiresAt.map P.isoformat)),
  ("key_digest", .text r.keyDigest),
  ("last_modified", optionalText r.lastModified),
  ("resource", P.dumpResource r.resource),
  ("schema_version", .text "1.0"),
  ("snapshot_id", .text r.snapshotId),
  ("source_capability", .text r.sourceCapability),
  ("stored_at", .text (P.isoformat r.storedAt)),
  ("successful", .scalar (if r.successful then "true" else "false"))]

def malformed : SnapshotError := .integrity "snapshot metadata is malformed"

def fieldsOf : Document → Option Fields
  | .mapping fields => some fields
  | _ => none

def isVersion : Option Document → Bool
  | some (.text s) => s == "1.0"
  | _ => false

def successMarker : Option Document → Option Bool
  | some (.scalar literal) => if literal = "true" then some true else if literal = "false" then some false else none
  | _ => none

/-- A time as the parser takes it: a naive one is a `ValueError`, and so malformed. -/
def parseTime (d : Document) : Except SnapshotError Int :=
  match P.fromisoformat (P.str d) with
  | some (.aware t) => .ok t
  | _ => .error malformed

def parseOptionalTime : Option Document → Except SnapshotError (Option Int)
  | none => .ok none
  | some d => (parseTime P d).map some

def parseArtifact (d : Document) : Except SnapshotError A :=
  ofOption malformed ((fieldsOf d).bind P.validateArtifact)

/-- `_parse_record` -/
def parseRecord (encoded : Bytes) : Except SnapshotError (SnapshotRecord R A) := do
  let fields ← ofOption malformed ((P.loads encoded).bind fieldsOf)
  require (isVersion (fields.lookup "schema_version")) malformed
  let successful ← ofOption malformed (successMarker (fields.lookup "successful"))
  let storedAt ← ofOption malformed (fields.lookup "stored_at") >>= parseTime P
  let expiresAt ← parseOptionalTime P (Document.get? fields "expires_at")
  let snapshotId ← ofOption malformed (fields.lookup "snapshot_id")
  let keyDigest ← ofOption malformed (fields.lookup "key_digest")
  let authenticationScope ← ofOption malformed (fields.lookup "authentication_scope")
  let sourceCapability ← ofOption malformed (fields.lookup "source_capability")
  let resource ← ofOption malformed ((fields.lookup "resource").bind P.validateResource)
  let artifact ← ofOption malformed (fields.lookup "artifact") >>= parseArtifact P
  let record : SnapshotRecord R A := {
    snapshotId := P.str snapshotId, keyDigest := P.str keyDigest
    authenticationScope := P.str authenticationScope, sourceCapability := P.str sourceCapability
    resource, artifact, storedAt, expiresAt
    etag := (Document.get? fields "etag").map P.str
    lastModified := (Document.get? fields "last_modified").map P.str
    successful}
  requireDigest record.snapshotId "snapshot"
  requireDigest record.keyDigest "cache key"
  require (cacheCapabilities.contains record.sourceCapability)
    (.integrity "snapshot metadata names an unknown capability")
  validateValidator record.etag "ETag"
  validateValidator record.lastModified "Last-Modified"
  return record

/-! ### The files -/

/-- The metadata files, by key digest and snapshot id. -/
abbrev Metadata := Dict (String × String) Bytes

/-- `_write_immutable`: a file that is there is not replaced. -/
def writeImmutable (files : Metadata) (path : String × String) (encoded : Bytes) : Except SnapshotError Metadata :=
  match files.get? path with
  | none => .ok (files.set path encoded)
  | some existing =>
    if existing.length > maxMetadataBytes then .error (.integrity "snapshot metadata exceeds the read bound")
    else if existing ≠ encoded then .error (.integrity "immutable snapshot metadata collision")
    else .ok files

/-- What one call of `store` is given. -/
structure StoreCall (R A : Type) where
  key : CacheKey
  resource : R
  artifact : A
  request : SnapshotRequest
  sourceCapability : String
  storedAt : Moment
  expiresAt : Option Moment := none
  etag : Option String := none
  lastModified : Option String := none
  successful : Bool := true

/-- The record that `store` writes. -/
def storedRecord (cas : Cas) (call : StoreCall R A) : Except SnapshotError (SnapshotRecord R A) := do
  let now ← toUtc "snapshot storage time" call.storedAt
  let expiresAt ← optionalUtc "snapshot expiry" call.expiresAt
  validateValidator call.etag "ETag"
  validateValidator call.lastModified "Last-Modified"
  require (cacheCapabilities.contains call.sourceCapability)
    (.value "snapshot source capability is not registered")
  verifyArtifact P cas call.artifact
  let resource ← sanitizedResource P call.request call.resource
  let artifact ← sanitizedArtifact P call.request call.artifact
  require (P.sourceResourceId call.artifact == P.resourceId call.resource)
    (.integrity "artifact does not belong to the supplied resource")
  let keyDigest := call.key.digest P.hash
  let snapshotId := P.hash.hexdigest
    (utf8 (snapshotText keyDigest (P.sha256 call.artifact) (P.isoformat now) call.sourceCapability))
  let record : SnapshotRecord R A := {
    snapshotId, keyDigest, authenticationScope := call.key.authenticationScope
    sourceCapability := call.sourceCapability, resource, artifact, storedAt := now, expiresAt
    etag := call.etag, lastModified := call.lastModified, successful := call.successful}
  require (decide ((P.dumps (recordDocument P record)).length ≤ maxMetadataBytes))
    (.integrity "snapshot metadata exceeds the storage bound")
  requireDigest keyDigest "cache key"
  requireDigest snapshotId "snapshot"
  return record

/-- The file of a record. -/
def pathOf (r : SnapshotRecord R A) : String × String := (r.keyDigest, r.snapshotId)

def writeRecord (files : Metadata) (record : SnapshotRecord R A) :
    Except SnapshotError (SnapshotRecord R A × Metadata) := do
  let files ← writeImmutable files (pathOf record) (P.dumps (recordDocument P record))
  return (record, files)

/-- `store` -/
def store (cas : Cas) (files : Metadata) (call : StoreCall R A) :
    Except SnapshotError (SnapshotRecord R A × Metadata) :=
  storedRecord P cas call >>= writeRecord P files

/-- The call of `store` in `record_not_modified`. -/
def revalidation (key : CacheKey) (record : SnapshotRecord R A) (request : SnapshotRequest) (ttlSeconds : Int)
    (checkedAt : Moment) (etag lastModified : Option String) : Except SnapshotError (StoreCall R A) := do
  require (decide (0 ≤ ttlSeconds ∧ ttlSeconds ≤ maxTtlSeconds)) (.value "cache TTL is outside the allowed bound")
  let current ← toUtc "revalidation time" checkedAt
  require (record.keyDigest == key.digest P.hash)
    (.integrity "revalidation record does not match the cache key")
  let expiresAt ← plusSeconds current ttlSeconds
  return {
    key, resource := record.resource, artifact := record.artifact, request
    sourceCapability := record.sourceCapability, storedAt := .aware current, expiresAt := some (.aware expiresAt)
    etag := etag.or record.etag, lastModified := lastModified.or record.lastModified}

/-- `record_not_modified` -/
def recordNotModified (cas : Cas) (files : Metadata) (key : CacheKey) (record : SnapshotRecord R A)
    (request : SnapshotRequest) (ttlSeconds : Int) (checkedAt : Moment) (etag lastModified : Option String := none) :
    Except SnapshotError (SnapshotRecord R A × Metadata) :=
  revalidation P key record request ttlSeconds checkedAt etag lastModified >>= store P cas files

/-- The files of a key's directory, by name. -/
def partition (files : Metadata) (keyDigest : String) : List ((String × String) × Bytes) :=
  (files.entries.filter fun e => e.1.1 == keyDigest).mergeSort fun e e' => decide (e.1.2 ≤ e'.1.2)

/-- One file of `_records`. -/
def readRecord (key : CacheKey) (encoded : Bytes) : Except SnapshotError (SnapshotRecord R A) := do
  require (decide (encoded.length ≤ maxMetadataBytes)) (.integrity "snapshot metadata exceeds the read bound")
  let record ← parseRecord P encoded
  require (record.keyDigest == key.digest P.hash && record.authenticationScope == key.authenticationScope)
    (.integrity "snapshot metadata does not match the cache partition")
  return record

/-- `_records` -/
def records (files : Metadata) (key : CacheKey) : Except SnapshotError (List (SnapshotRecord R A)) := do
  requireDigest (key.digest P.hash) "cache key"
  let paths := partition files (key.digest P.hash)
  require (decide (paths.length ≤ maxRecordsPerKey))
    (.integrity "snapshot record count exceeds the lookup bound")
  paths.mapM fun path => readRecord P key path.2

/-- `(record.stored_at, record.snapshot_id)` is less. -/
def SnapshotRecord.older (r r' : SnapshotRecord R A) : Bool :=
  decide (r.storedAt < r'.storedAt) || (r.storedAt == r'.storedAt && decide (r.snapshotId < r'.snapshotId))

/-- `max`, the first of equals. -/
def newest : List (SnapshotRecord R A) → Option (SnapshotRecord R A)
  | [] => none
  | r :: rest =>
    match newest rest with
    | none => some r
    | some best => if r.older best then some best else some r

/-- `latest_successful` -/
def latestSuccessful (cas : Cas) (files : Metadata) (key : CacheKey) :
    Except SnapshotError (Option (SnapshotRecord R A)) := do
  let found ← records P files key
  match newest (found.filter (·.successful)) with
  | none => return none
  | some selected =>
    verifyArtifact P cas selected.artifact
    return some selected

/-- The disposition of a record at a time. -/
def disposed (record : SnapshotRecord R A) (current stale : Int) : Except SnapshotError (CacheLookup R A) :=
  match record.expiresAt with
  | none => .ok {disposition := .fresh, record := some record, usable := true}
  | some expiresAt =>
    if current < expiresAt then .ok {disposition := .fresh, record := some record, usable := true}
    else do
      let staleUntil ← plusSeconds expiresAt stale
      if stale ≠ 0 ∧ current ≤ staleUntil then
        return {
          disposition := .staleWhileRevalidate, record := some record, usable := true, requiresRevalidation := true}
      else return {disposition := .revalidate, record := some record, requiresRevalidation := true}

/-- `lookup` -/
def lookup (cas : Cas) (files : Metadata) (key : CacheKey) (now : Moment) (staleWhileRevalidateSeconds : Int := 0) :
    Except SnapshotError (CacheLookup R A) := do
  require (decide (0 ≤ staleWhileRevalidateSeconds ∧ staleWhileRevalidateSeconds ≤ maxTtlSeconds))
    (.value "stale-while-revalidate seconds are outside the allowed bound")
  let current ← toUtc "cache lookup time" now
  match ← latestSuccessful P cas files key with
  | none => return {disposition := .miss}
  | some record => disposed record current staleWhileRevalidateSeconds

end Store

/-! ### Histories -/

/-- A call that may store, with what the content store holds at that time. -/
inductive Call (R A : Type)
  | store (cas : Cas) (call : StoreCall R A)
  | recordNotModified (cas : Cas) (key : CacheKey) (record : SnapshotRecord R A) (request : SnapshotRequest)
      (ttlSeconds : Int) (checkedAt : Moment) (etag lastModified : Option String)

def Call.key {R A : Type} : Call R A → CacheKey
  | .store _ call => call.key
  | .recordNotModified _ key .. => key

/-- The files, and what the calls have returned. -/
structure History (R A : Type) where
  files : Metadata := ∅
  returned : List (CacheKey × SnapshotRecord R A) := []

section History
variable {R A : Type} (P : Platform R A)

def perform (files : Metadata) : Call R A → Except SnapshotError (SnapshotRecord R A × Metadata)
  | .store cas call => store P cas files call
  | .recordNotModified cas key record request ttlSeconds checkedAt etag lastModified =>
    recordNotModified P cas files key record request ttlSeconds checkedAt etag lastModified

/-- A call that raises leaves the files as they are. -/
def History.next (h : History R A) (call : Call R A) : History R A :=
  match perform P h.files call with
  | .ok (record, files) => {files, returned := h.returned ++ [(call.key, record)]}
  | .error _ => h

def history (calls : List (Call R A)) : History R A := calls.foldl (History.next P) {}

end History

end Fetech.Snapshots
