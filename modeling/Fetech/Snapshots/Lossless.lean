import Fetech.Snapshots.Publication
import Fetech.Snapshots.Sample

/-! The contract models of a snapshot, field by field (`Resource`, `Artifact` and `QualityAssessment` of
`fetech/models.py`), and what storing a snapshot is to keep (`SnapshotStore.store` and `_parse_record` of
`fetech/adapters/cache.py`).

What pydantic writes for a UUID, a number or a time, and what it reads as one, is a `FieldType`. -/
namespace Fetech.Snapshots
open Lib Lib.Except Storage

/-! ### Fields -/

/-- How the values of a field are written in a document, and read back. -/
structure FieldType (isLiteral : String → Bool) (α : Type) where
  dump : α → Document
  validate : Document → Option α
  json : ∀ a, isJson isLiteral (dump a) = true
  validate_dump : ∀ a, validate (dump a) = some a

namespace FieldType
variable {isLiteral : String → Bool} {α : Type}

def text : FieldType isLiteral String where
  dump := .text
  validate
    | .text s => some s
    | _ => none
  json _ := rfl
  validate_dump _ := rfl

/-- `… | None` -/
def optional (field : FieldType isLiteral α) (hnull : ∀ a, field.dump a ≠ .null) : FieldType isLiteral (Option α) where
  dump
    | none => .null
    | some a => field.dump a
  validate
    | .null => some none
    | d => (field.validate d).map some
  json o := by
    cases o with
    | none => rfl
    | some a => exact field.json a
  validate_dump o := by
    cases o with
    | none => rfl
    | some a =>
      have hdump := field.validate_dump a
      have hne := hnull a
      show (match field.dump a with | .null => some none | d => (field.validate d).map some) = some (some a)
      split
      · contradiction
      · rw [hdump]
        rfl

theorem areJson_map (field : FieldType isLiteral α) (values : List α) : areJson isLiteral (values.map field.dump) = true := by
  induction values with
  | nil => rfl
  | cons a values ih => rw [List.map_cons, areJson, field.json a, ih, Bool.and_self]

/-- `tuple[…, ...]` -/
def tuple (field : FieldType isLiteral α) : FieldType isLiteral (List α) where
  dump values := .list (values.map field.dump)
  validate
    | .list items => items.mapM field.validate
    | _ => none
  json values := field.areJson_map values
  validate_dump values := by
    show (values.map field.dump).mapM field.validate = some values
    induction values with
    | nil => rfl
    | cons a values ih =>
      rw [List.map_cons, List.mapM_cons, field.validate_dump a, ih]
      rfl

/-- `PageState` -/
def pageState : FieldType isLiteral PageState where
  dump state := .text state.value
  validate
    | .text s =>
      [PageState.ok, .empty, .login, .captcha, .botBlock, .paywall, .error, .wrongLanguage, .needsOcr, .unknown].find?
        (·.value = s)
    | _ => none
  json _ := rfl
  validate_dump state := by cases state <;> rfl

end FieldType

/-- A field of a mapping, or its default; a field without one is required. -/
def readField {isLiteral : String → Bool} {α : Type} (fields : Fields) (name : String) (field : FieldType isLiteral α)
    (default : Option α := none) : Option α :=
  match fields.lookup name with
  | none => default
  | some d => field.validate d

/-- `extra="forbid"` -/
def hasOnly (fields : Fields) (names : List String) : Bool := fields.all fun field => names.contains field.1

/-! ### The models -/

/-- What pydantic has for the types of the fields, and the defaults it makes up. -/
structure Pydantic (U T F : Type) extends JsonCodec where
  uuid : FieldType isLiteral U
  uuidText : U → String
  dump_uuid : ∀ u, uuid.dump u = .text (uuidText u)
  uuid4 : U
  time : FieldType isLiteral T
  utcNow : T
  float : FieldType isLiteral F
  zero : F
  bool : FieldType isLiteral Bool
  int : FieldType isLiteral Int
  dump_int : ∀ n, int.dump n ≠ .null
  nat : FieldType isLiteral Nat
  dump_nat : ∀ n, nat.dump n = .scalar (toString n)

/-- `Resource` -/
structure ResourceModel (U T : Type) where
  resourceId : U
  canonicalUrl : String
  requestedUrl : String
  mediaType : Option String
  statusCode : Option Int
  retrievedAt : T
  authorityUrl : Option String
  checkedOnly : Bool

/-- `QualityAssessment`, its numbers between 0 and 1. -/
structure QualityModel (U F : Type) where
  pageState : PageState
  score : F
  accepted : Bool
  language : Option String
  completeness : F
  duplicateOf : Option U
  reasons : List String

/-- `Artifact` -/
structure ArtifactModel (U F : Type) where
  artifactId : U
  role : String
  representation : String
  mediaType : String
  schemaVersion : String
  casUri : String
  sha256 : String
  size : Nat
  sourceResourceId : U
  parentArtifactIds : List U
  extractorVersion : String
  locators : List String
  quality : QualityModel U F

namespace Pydantic
variable {U T F : Type} (p : Pydantic U T F)

def string : FieldType p.isLiteral String := FieldType.text

def optionalString : FieldType p.isLiteral (Option String) := p.string.optional nofun

def optionalUuid : FieldType p.isLiteral (Option U) := p.uuid.optional fun u => by
  rw [p.dump_uuid]
  exact nofun

def optionalInt : FieldType p.isLiteral (Option Int) := p.int.optional p.dump_int

def strings : FieldType p.isLiteral (List String) := p.string.tuple

def uuids : FieldType p.isLiteral (List U) := p.uuid.tuple

def pageState : FieldType p.isLiteral PageState := FieldType.pageState

def dumpResource (r : ResourceModel U T) : Document := .mapping [
  ("authority_url", p.optionalString.dump r.authorityUrl),
  ("canonical_url", p.string.dump r.canonicalUrl),
  ("checked_only", p.bool.dump r.checkedOnly),
  ("media_type", p.optionalString.dump r.mediaType),
  ("requested_url", p.string.dump r.requestedUrl),
  ("resource_id", p.uuid.dump r.resourceId),
  ("retrieved_at", p.time.dump r.retrievedAt),
  ("status_code", p.optionalInt.dump r.statusCode)]

def validateResource : Document → Option (ResourceModel U T)
  | .mapping fields => do
    guard (hasOnly fields ["resource_id", "canonical_url", "requested_url", "media_type", "status_code", "retrieved_at",
      "authority_url", "checked_only"])
    let resourceId ← readField fields "resource_id" p.uuid (some p.uuid4)
    let canonicalUrl ← readField fields "canonical_url" p.string
    let requestedUrl ← readField fields "requested_url" p.string
    let mediaType ← readField fields "media_type" p.optionalString (some none)
    let statusCode ← readField fields "status_code" p.optionalInt (some none)
    let retrievedAt ← readField fields "retrieved_at" p.time (some p.utcNow)
    let authorityUrl ← readField fields "authority_url" p.optionalString (some none)
    let checkedOnly ← readField fields "checked_only" p.bool (some false)
    return {resourceId, canonicalUrl, requestedUrl, mediaType, statusCode, retrievedAt, authorityUrl, checkedOnly}
  | _ => none

def dumpQuality (q : QualityModel U F) : Document := .mapping [
  ("accepted", p.bool.dump q.accepted),
  ("completeness", p.float.dump q.completeness),
  ("duplicate_of", p.optionalUuid.dump q.duplicateOf),
  ("language", p.optionalString.dump q.language),
  ("page_state", p.pageState.dump q.pageState),
  ("reasons", p.strings.dump q.reasons),
  ("score", p.float.dump q.score)]

def validateQuality : Document → Option (QualityModel U F)
  | .mapping fields => do
    guard (hasOnly fields ["page_state", "score", "accepted", "language", "completeness", "duplicate_of", "reasons"])
    let pageState ← readField fields "page_state" p.pageState (some .unknown)
    let score ← readField fields "score" p.float (some p.zero)
    let accepted ← readField fields "accepted" p.bool (some false)
    let language ← readField fields "language" p.optionalString (some none)
    let completeness ← readField fields "completeness" p.float (some p.zero)
    let duplicateOf ← readField fields "duplicate_of" p.optionalUuid (some none)
    let reasons ← readField fields "reasons" p.strings (some [])
    return {pageState, score, accepted, language, completeness, duplicateOf, reasons}
  | _ => none

theorem json_quality (q : QualityModel U F) : isJson p.isLiteral (p.dumpQuality q) = true := by
  simp only [dumpQuality, isJson, fieldsJson, FieldType.json, List.map, Bool.and_true, decide_eq_true_eq]
  decide

theorem validate_dumpQuality (q : QualityModel U F) : p.validateQuality (p.dumpQuality q) = some q := by
  obtain ⟨fields, hfields⟩ : ∃ fields, p.dumpQuality q = .mapping fields := ⟨_, rfl⟩
  have honly : hasOnly fields ["page_state", "score", "accepted", "language", "completeness", "duplicate_of", "reasons"] =
      true := by
    cases hfields
    rfl
  have hstate : readField fields "page_state" p.pageState (some .unknown) = some q.pageState := by
    cases hfields
    exact p.pageState.validate_dump _
  have hscore : readField fields "score" p.float (some p.zero) = some q.score := by
    cases hfields
    exact p.float.validate_dump _
  have haccepted : readField fields "accepted" p.bool (some false) = some q.accepted := by
    cases hfields
    exact p.bool.validate_dump _
  have hlanguage : readField fields "language" p.optionalString (some none) = some q.language := by
    cases hfields
    exact p.optionalString.validate_dump _
  have hcompleteness : readField fields "completeness" p.float (some p.zero) = some q.completeness := by
    cases hfields
    exact p.float.validate_dump _
  have hduplicate : readField fields "duplicate_of" p.optionalUuid (some none) = some q.duplicateOf := by
    cases hfields
    exact p.optionalUuid.validate_dump _
  have hreasons : readField fields "reasons" p.strings (some []) = some q.reasons := by
    cases hfields
    exact p.strings.validate_dump _
  rw [hfields]
  simp only [validateQuality, honly, hstate, hscore, haccepted, hlanguage, hcompleteness, hduplicate, hreasons]
  rfl

def quality : FieldType p.isLiteral (QualityModel U F) where
  dump := p.dumpQuality
  validate := p.validateQuality
  json := p.json_quality
  validate_dump := p.validate_dumpQuality

def defaultQuality : QualityModel U F where
  pageState := .unknown
  score := p.zero
  accepted := false
  language := none
  completeness := p.zero
  duplicateOf := none
  reasons := []

def dumpArtifact (a : ArtifactModel U F) : Fields := [
  ("artifact_id", p.uuid.dump a.artifactId),
  ("cas_uri", p.string.dump a.casUri),
  ("extractor_version", p.string.dump a.extractorVersion),
  ("locators", p.strings.dump a.locators),
  ("media_type", p.string.dump a.mediaType),
  ("parent_artifact_ids", p.uuids.dump a.parentArtifactIds),
  ("quality", p.quality.dump a.quality),
  ("representation", p.string.dump a.representation),
  ("role", p.string.dump a.role),
  ("schema_version", p.string.dump a.schemaVersion),
  ("sha256", p.string.dump a.sha256),
  ("size", p.nat.dump a.size),
  ("source_resource_id", p.uuid.dump a.sourceResourceId)]

def artifactNames : List String :=
  ["artifact_id", "role", "representation", "media_type", "schema_version", "cas_uri", "sha256", "size",
    "source_resource_id", "parent_artifact_ids", "extractor_version", "locators", "quality"]

def validateArtifact (fields : Fields) : Option (ArtifactModel U F) := do
  guard (hasOnly fields artifactNames)
  let artifactId ← readField fields "artifact_id" p.uuid (some p.uuid4)
  let role ← readField fields "role" p.string
  let representation ← readField fields "representation" p.string
  let mediaType ← readField fields "media_type" p.string
  let schemaVersion ← readField fields "schema_version" p.string (some "1.0")
  let casUri ← readField fields "cas_uri" p.string
  let sha256 ← readField fields "sha256" p.string
  let size ← readField fields "size" p.nat
  let sourceResourceId ← readField fields "source_resource_id" p.uuid
  let parentArtifactIds ← readField fields "parent_artifact_ids" p.uuids (some [])
  let extractorVersion ← readField fields "extractor_version" p.string
  let locators ← readField fields "locators" p.strings (some [])
  let quality ← readField fields "quality" p.quality (some p.defaultQuality)
  return {
    artifactId, role, representation, mediaType, schemaVersion, casUri, sha256, size, sourceResourceId
    parentArtifactIds, extractorVersion, locators, quality}

theorem json_resource (r : ResourceModel U T) : isJson p.isLiteral (p.dumpResource r) = true := by
  simp only [dumpResource, isJson, fieldsJson, FieldType.json, List.map, Bool.and_true, decide_eq_true_eq]
  decide

theorem json_artifact (a : ArtifactModel U F) : isJson p.isLiteral (.mapping (p.dumpArtifact a)) = true := by
  simp only [dumpArtifact, isJson, fieldsJson, FieldType.json, List.map, Bool.and_true]
  exact decide_eq_true (by decide)

theorem validate_dumpResource (r : ResourceModel U T) : p.validateResource (p.dumpResource r) = some r := by
  obtain ⟨fields, hfields⟩ : ∃ fields, p.dumpResource r = .mapping fields := ⟨_, rfl⟩
  have honly : hasOnly fields ["resource_id", "canonical_url", "requested_url", "media_type", "status_code", "retrieved_at",
      "authority_url", "checked_only"] = true := by
    cases hfields
    rfl
  have hid : readField fields "resource_id" p.uuid (some p.uuid4) = some r.resourceId := by
    cases hfields
    exact p.uuid.validate_dump _
  have hcanonical : readField fields "canonical_url" p.string = some r.canonicalUrl := by
    cases hfields
    rfl
  have hrequested : readField fields "requested_url" p.string = some r.requestedUrl := by
    cases hfields
    rfl
  have hmedia : readField fields "media_type" p.optionalString (some none) = some r.mediaType := by
    cases hfields
    exact p.optionalString.validate_dump _
  have hstatus : readField fields "status_code" p.optionalInt (some none) = some r.statusCode := by
    cases hfields
    exact p.optionalInt.validate_dump _
  have hretrieved : readField fields "retrieved_at" p.time (some p.utcNow) = some r.retrievedAt := by
    cases hfields
    exact p.time.validate_dump _
  have hauthority : readField fields "authority_url" p.optionalString (some none) = some r.authorityUrl := by
    cases hfields
    exact p.optionalString.validate_dump _
  have hchecked : readField fields "checked_only" p.bool (some false) = some r.checkedOnly := by
    cases hfields
    exact p.bool.validate_dump _
  rw [hfields]
  simp only [validateResource, honly, hid, hcanonical, hrequested, hmedia, hstatus, hretrieved, hauthority, hchecked]
  rfl

theorem validate_dumpArtifact (a : ArtifactModel U F) : p.validateArtifact (p.dumpArtifact a) = some a := by
  have honly : hasOnly (p.dumpArtifact a) artifactNames = true := rfl
  have hid : readField (p.dumpArtifact a) "artifact_id" p.uuid (some p.uuid4) = some a.artifactId := p.uuid.validate_dump _
  have htext : ∀ {name : String} {s : String} {default : Option String}, (p.dumpArtifact a).lookup name = some (.text s) →
      readField (p.dumpArtifact a) name p.string default = some s := by
    intro name s default hlookup
    rw [readField, hlookup]
    rfl
  have hrole : (p.dumpArtifact a).lookup "role" = some (.text a.role) := rfl
  have hrepresentation : (p.dumpArtifact a).lookup "representation" = some (.text a.representation) := rfl
  have hmedia : (p.dumpArtifact a).lookup "media_type" = some (.text a.mediaType) := rfl
  have hversion : (p.dumpArtifact a).lookup "schema_version" = some (.text a.schemaVersion) := rfl
  have huri : (p.dumpArtifact a).lookup "cas_uri" = some (.text a.casUri) := rfl
  have hhash : (p.dumpArtifact a).lookup "sha256" = some (.text a.sha256) := rfl
  have hextractor : (p.dumpArtifact a).lookup "extractor_version" = some (.text a.extractorVersion) := rfl
  have hsize : readField (p.dumpArtifact a) "size" p.nat = some a.size := p.nat.validate_dump _
  have hsource : readField (p.dumpArtifact a) "source_resource_id" p.uuid = some a.sourceResourceId := p.uuid.validate_dump _
  have hparents : readField (p.dumpArtifact a) "parent_artifact_ids" p.uuids (some []) = some a.parentArtifactIds :=
    p.uuids.validate_dump _
  have hlocators : readField (p.dumpArtifact a) "locators" p.strings (some []) = some a.locators := p.strings.validate_dump _
  have hquality : readField (p.dumpArtifact a) "quality" p.quality (some p.defaultQuality) = some a.quality :=
    p.quality.validate_dump _
  rw [validateArtifact, honly, hid, htext hrole, htext hrepresentation, htext hmedia, htext hversion, htext huri,
    htext hhash, hsize, hsource, hparents, htext hextractor, hlocators, hquality]
  rfl

/-- A field that was read holds what it was written with. -/
theorem readField_dump {α : Type} {fields : Fields} {name : String} {field : FieldType p.isLiteral α} {default : Option α}
    {a b : α} (h : readField fields name field default = some a) (hlookup : fields.lookup name = some (field.dump b)) :
    a = b := by
  rw [readField, hlookup] at h
  exact Option.some.inj (h.symm.trans (field.validate_dump b))

theorem validateArtifact_eq {fields : Fields} {a : ArtifactModel U F} (h : p.validateArtifact fields = some a) :
    readField fields "cas_uri" p.string = some a.casUri ∧ readField fields "sha256" p.string = some a.sha256 ∧
      readField fields "size" p.nat = some a.size := by
  rw [validateArtifact] at h
  -- The fields before the address, those of the address, and those behind.
  obtain ⟨_, -, h⟩ := Option.bind_eq_some_iff.mp h
  obtain ⟨_, -, h⟩ := Option.bind_eq_some_iff.mp h
  obtain ⟨_, -, h⟩ := Option.bind_eq_some_iff.mp h
  obtain ⟨_, -, h⟩ := Option.bind_eq_some_iff.mp h
  obtain ⟨_, -, h⟩ := Option.bind_eq_some_iff.mp h
  obtain ⟨_, -, h⟩ := Option.bind_eq_some_iff.mp h
  obtain ⟨casUri, hcasUri, h⟩ := Option.bind_eq_some_iff.mp h
  obtain ⟨sha256, hsha256, h⟩ := Option.bind_eq_some_iff.mp h
  obtain ⟨size, hsize, h⟩ := Option.bind_eq_some_iff.mp h
  obtain ⟨_, -, h⟩ := Option.bind_eq_some_iff.mp h
  obtain ⟨_, -, h⟩ := Option.bind_eq_some_iff.mp h
  obtain ⟨_, -, h⟩ := Option.bind_eq_some_iff.mp h
  obtain ⟨_, -, h⟩ := Option.bind_eq_some_iff.mp h
  obtain ⟨_, -, h⟩ := Option.bind_eq_some_iff.mp h
  cases h
  exact ⟨hcasUri, hsha256, hsize⟩

/-- **The contract models keep what a snapshot needs of them.** -/
def contracts : Contracts (ResourceModel U T) (ArtifactModel U F) where
  toJsonCodec := p.toJsonCodec
  dumpResource := p.dumpResource
  validateResource := p.validateResource
  resourceId r := p.uuidText r.resourceId
  canonicalUrl := ResourceModel.canonicalUrl
  requestedUrl := ResourceModel.requestedUrl
  authorityUrl := ResourceModel.authorityUrl
  withUrls r canonicalUrl requestedUrl authorityUrl := {r with canonicalUrl, requestedUrl, authorityUrl}
  dumpArtifact := p.dumpArtifact
  validateArtifact := p.validateArtifact
  casUri := ArtifactModel.casUri
  sha256 := ArtifactModel.sha256
  size := ArtifactModel.size
  sourceResourceId a := p.uuidText a.sourceResourceId
  json_resource := p.json_resource
  json_artifact := p.json_artifact
  validate_dumpResource := p.validate_dumpResource
  validate_dumpArtifact := p.validate_dumpArtifact
  dump_casUri _ := rfl
  dump_sha256 _ := rfl
  dump_size a := congrArg some (p.dump_nat a.size)
  validate_casUri _ _ _ h hlookup := p.readField_dump (p.validateArtifact_eq h).1 hlookup
  validate_sha256 _ _ _ h hlookup := p.readField_dump (p.validateArtifact_eq h).2.1 hlookup
  validate_size _ _ n h hlookup := p.readField_dump (p.validateArtifact_eq h).2.2 (hlookup.trans (congrArg some (p.dump_nat n).symm))

end Pydantic

/-- The rest of the platform: the hash, the tables of text, and times of records. -/
structure Runtime where
  hash : Hash
  codecs : Codecs
  isoformat : Int → String
  fromisoformat : String → Option Moment
  from_isoformat : ∀ t, minTime ≤ t → t ≤ maxTime → fromisoformat (isoformat t) = some (.aware t)
  str : Document → String
  str_text : ∀ s, str (.text s) = s

def Pydantic.platform {U T F : Type} (p : Pydantic U T F) (r : Runtime) : Platform (ResourceModel U T) (ArtifactModel U F) where
  toContracts := p.contracts
  hash := r.hash
  codecs := r.codecs
  isoformat := r.isoformat
  fromisoformat := r.fromisoformat
  from_isoformat := r.from_isoformat
  str := r.str
  str_text := r.str_text

/-! ### What storing keeps -/

/-- A record that was stored: what was written is within the limit, is at its path, and is read back as it was, by
itself and in its partition. -/
structure KeptRecord {R A : Type} (P : Platform R A) (key : CacheKey) (record : SnapshotRecord R A) (files : Metadata) :
    Prop where
  bounded : (P.dumps (recordDocument P record)).length ≤ maxMetadataBytes
  written : files.get? (pathOf record) = some (P.dumps (recordDocument P record))
  parsed : parseRecord P (P.dumps (recordDocument P record)) = .ok record
  read : readRecord P key (P.dumps (recordDocument P record)) = .ok record

theorem store_keeps {R A : Type} {P : Platform R A} {cas : Cas} {files files' : Metadata} {call : StoreCall R A}
    {record : SnapshotRecord R A} (h : store P cas files call = .ok (record, files')) :
    KeptRecord P call.key record files' := by
  simp only [store, writeRecord, bind_eq_ok] at h
  obtain ⟨stored, hstored, written, hwritten, hreturn⟩ := h
  cases hreturn
  have hkept := (storedRecord_stored hstored).1
  have hpath := (writeImmutable_eq_ok hwritten).2 (pathOf record)
  rw [if_pos rfl] at hpath
  exact ⟨hkept.bounded, hpath, parseRecord_dumps hkept.wellFormed, hkept.read⟩

/-- What holds after calls of `_write_immutable` for one path, in whatever order they took their steps. -/
structure Immutable (file : List Char) (s₀ : Writers) (actions : List WriteAct) (s : Writers) : Prop where
  /-- What is published stays as it is. -/
  kept : ∀ more s' content, (writers file).run s more = some s' → s.directory.content? file = some content →
    s'.directory.content? file = some content
  /-- A call with the content that is published succeeds, and one with other content raises. -/
  returned : ∀ id encoded outcome, s.calls id = some (encoded, .finished outcome) →
    (∃ content, s.directory.content? file = some content ∧ outcome = verdict encoded content) ∨
      ((∃ a, WriteAct.step id a ∈ actions ∧ a.fails = true) ∧ ∃ err, outcome = .error err)
  /-- A call goes on until it returns, and has only so many steps to take. -/
  goesOn : ∀ id encoded pc, s.calls id = some (encoded, pc) → (∀ outcome, pc ≠ .finished outcome) →
    ∃ a, a.fails = false ∧ (writersStep file s (.step id a)).isSome = true
  ends : ∀ id encoded pc, s.calls id = some (encoded, pc) →
    actions.countP (WriteAct.isStepOf id) ≤ encoded.length + maxMetadataBytes + 13
  /-- A scan finds nothing new but the path. -/
  hidden : s.directory.glob ⊆ insert file s₀.directory.glob

theorem Tracked.immutable {file : List Char} {s₀ s : Writers} {actions : List WriteAct} (h : Tracked file s₀ actions s) :
    Immutable file s₀ actions s where
  kept _ _ _ hrun hcontent := (run_owned_writers h.owned hrun).2.content hcontent
  returned id encoded outcome hcall := h.settled id encoded (.finished outcome) hcall
  goesOn id encoded pc hcall hpc := by
    obtain ⟨a, ha, hstep⟩ := @writeStep_progress file s.directory encoded pc h.finite hpc
    refine ⟨a, ha, ?_⟩
    rw [writersStep, hcall]
    exact (Option.isSome_map).trans hstep
  ends id encoded pc hcall := by
    have hcounted := h.counted id encoded pc hcall
    simp only [remaining] at hcounted
    omega
  hidden := h.hidden

/-- What the calls return together is what one call by itself makes of the files. -/
theorem writeImmutable_verdict {files : Metadata} {path : String × String} {content : Bytes} (hpath : files.get? path = some content)
    (hsize : content.length ≤ maxMetadataBytes) (encoded : Bytes) :
    verdict encoded content = ((writeImmutable files path encoded).mapError WriteError.snapshot).map fun _ => () := by
  have hless : ¬ content.length > maxMetadataBytes := Nat.not_lt.mpr hsize
  rw [writeImmutable, hpath, verdict]
  dsimp only
  rw [if_neg hless]
  by_cases heq : content = encoded
  · rw [if_pos heq, if_neg (not_not.mpr heq)]
    rfl
  · rw [if_neg heq, if_pos heq]
    rfl

theorem isJson_number (n : Nat) : isJson isSampleLiteral (.scalar (toString n)) = true := isSampleLiteral_toString n

def validateNumber (d : Document) : Option Nat := numberOf (some d)

def sampleNumber : FieldType isSampleLiteral Nat where
  dump n := .scalar (toString n)
  validate := validateNumber
  json := isJson_number
  validate_dump := numberOf_toString

def dumpBool (b : Bool) : Document := .scalar (if b then "true" else "false")

def validateBool : Document → Option Bool
  | .scalar "true" => some true
  | .scalar "false" => some false
  | _ => none

theorem isJson_dumpBool (b : Bool) : isJson isSampleLiteral (dumpBool b) = true := isSampleLiteral_bool b

theorem validateBool_dumpBool (b : Bool) : validateBool (dumpBool b) = some b := by
  cases b
  · rfl
  · rfl

def sampleBool : FieldType isSampleLiteral Bool where
  dump := dumpBool
  validate := validateBool
  json := isJson_dumpBool
  validate_dump := validateBool_dumpBool

def dumpInt : Int → Document
  | .ofNat n => .scalar (toString n)
  | .negSucc n => .scalar (String.ofList ('-' :: (toString (n + 1)).toList))

def validateInt : Document → Option Int
  | .scalar literal =>
    match literal.toList with
    | '-' :: digits => some (-Nat.ofDigitChars 10 digits 0)
    | digits => some (Nat.ofDigitChars 10 digits 0)
  | _ => none

theorem isJson_dumpInt (z : Int) : isJson isSampleLiteral (dumpInt z) = true := by
  cases z with
  | ofNat n => exact isSampleLiteral_toString n
  | negSucc n =>
    have hword := isSampleLiteral_toString (n + 1)
    simp only [isSampleLiteral, Bool.and_eq_true, bne_iff_ne] at hword
    show isSampleLiteral (String.ofList ('-' :: (toString (n + 1)).toList)) = true
    rw [isSampleLiteral, String.toList_ofList, List.all_cons, hword.2, Bool.and_true]
    have hnull : String.ofList ('-' :: (toString (n + 1)).toList) ≠ "null" := by
      intro heq
      have hlist := congrArg String.toList heq
      rw [String.toList_ofList] at hlist
      exact absurd (List.cons.inj hlist).1 (by decide)
    rw [bne_iff_ne.mpr hnull]
    rfl

theorem digits_toString (n : Nat) : Nat.ofDigitChars 10 (toString n).toList 0 = n := by
  rw [Nat.toString_eq_repr, Nat.toList_repr, Nat.ofDigitChars_ten_toDigits]

theorem validateInt_dumpInt (z : Int) : validateInt (dumpInt z) = some z := by
  cases z with
  | ofNat n =>
    have hdigit : ∀ rest, (toString n).toList ≠ '-' :: rest := by
      intro rest heq
      have hmem : '-' ∈ (toString n).toList := heq ▸ List.mem_cons_self
      rw [Nat.toString_eq_repr, Nat.toList_repr] at hmem
      exact absurd (Nat.isDigit_of_mem_toDigits (by decide) (by decide) hmem) (by decide)
    simp only [dumpInt, validateInt]
    rw [digits_toString]
    rfl
  | negSucc n =>
    simp only [dumpInt, validateInt, String.toList_ofList, digits_toString]
    rfl

def sampleInt : FieldType isSampleLiteral Int where
  dump := dumpInt
  validate := validateInt
  json := isJson_dumpInt
  validate_dump := validateInt_dumpInt

theorem dumpInt_ne_null (z : Int) : sampleInt.dump z ≠ .null := by
  cases z with
  | ofNat n => exact nofun
  | negSucc n => exact nofun

theorem dump_text (s : String) : (FieldType.text : FieldType isSampleLiteral String).dump s = .text s := rfl

theorem dump_number (n : Nat) : sampleNumber.dump n = .scalar (toString n) := rfl

/-- UUIDs and times by their text, and scores of whole numbers. -/
noncomputable def samplePydantic : Pydantic String String Nat where
  toJsonCodec := sampleContracts.toJsonCodec
  uuid := .text
  uuidText := id
  dump_uuid := dump_text
  uuid4 := "00000000-0000-4000-8000-000000000000"
  time := .text
  utcNow := "1970-01-01T00:00:00Z"
  float := sampleNumber
  zero := 0
  bool := sampleBool
  int := sampleInt
  dump_int := dumpInt_ne_null
  nat := sampleNumber
  dump_nat := dump_number

theorem isDigest_sampleSha256 (_ : Bytes) : isDigest sampleSha256 = true := by decide +kernel

def sampleRuntime : Runtime where
  hash := ⟨fun _ => sampleSha256, isDigest_sampleSha256⟩
  codecs := asciiCodecs
  isoformat := sampleIsoformat
  fromisoformat := sampleFromisoformat
  from_isoformat := sampleFromisoformat_isoformat
  str := sampleStr
  str_text := sampleStr_text

def article : ResourceModel String String where
  resourceId := "11111111-1111-4111-8111-111111111111"
  canonicalUrl := "https://a.example/"
  requestedUrl := "https://a.example/"
  mediaType := some "text/plain"
  statusCode := some 200
  retrievedAt := "1970-01-01T00:00:01Z"
  authorityUrl := none
  checkedOnly := false

def articleText : ArtifactModel String Nat where
  artifactId := "22222222-2222-4222-8222-222222222222"
  role := "primary"
  representation := "archived_snapshot"
  mediaType := "text/plain"
  schemaVersion := "1.0"
  casUri := casPrefix ++ sampleSha256
  sha256 := sampleSha256
  size := 1
  sourceResourceId := article.resourceId
  parentArtifactIds := []
  extractorVersion := "1"
  locators := ["line:1"]
  quality := {
    pageState := .ok, score := 1, accepted := true, language := some "en", completeness := 1, duplicateOf := none
    reasons := ["short"]}

def articleCall : StoreCall (ResourceModel String String) (ArtifactModel String Nat) where
  key := sampleKey "public"
  resource := article
  artifact := articleText
  request := {target := "https://a.example/", authenticationRef := none}
  sourceCapability := "web_archive"
  storedAt := .aware (secondTime 1)
  etag := some "\"v1\""

theorem article_stored :
    (store (samplePydantic.platform sampleRuntime) sampleCas ∅ articleCall).toOption.isSome = true := by
  decide +kernel

end Fetech.Snapshots
