import Fetech.Parsers

/-! What the parent makes of a document worker's answer (`fetech/adapters/documents.py`,
`_validate_worker_result`).

Nothing of the answer is trusted: its schema, the format it observed, where its parser comes from,
each block by that format, and that the document can be stored. -/
namespace Fetech.Parsers
open Lib Lib.Except Archive JsonText

variable {φ : Type}

/-! ### Contracts -/

/-- What `_DOCUMENT_RESULT_CONTRACTS` says of a format. -/
structure Contract where
  parser : String
  type : String
  locatorPrefix : String

/-- `_DOCUMENT_RESULT_CONTRACTS`. -/
def documentResultContracts : List (String × Contract) :=
  [("csv", ⟨"csv", "table", "row:"⟩),
    ("dataset_file", ⟨"binary-metadata", "binary_dataset", "byte:"⟩),
    ("docx", ⟨"python-docx", "docx", "paragraph:"⟩),
    ("json_file", ⟨"stdlib-json", "json", "json:"⟩),
    ("markdown", ⟨"markdown-text", "markdown", "line:"⟩),
    ("pdf", ⟨"pypdf", "pdf", "page:"⟩),
    ("pptx", ⟨"python-pptx", "pptx", "slide:"⟩),
    ("scanned_pdf", ⟨"pypdf", "pdf", "page:"⟩),
    ("txt", ⟨"text", "text", "line:"⟩),
    ("xlsx", ⟨"openpyxl", "xlsx", "sheet:"⟩),
    ("xml_file", ⟨"stdlib-xml", "xml", "xpath:"⟩),
    ("zip_archive", ⟨"stdlib-zip", "zip_archive", "member:"⟩)]

/-! ### Provenance -/

/-- `_DOCLING_REQUIRED_COMPONENT_VERSIONS`. -/
def doclingRequiredComponentVersions : List (String × String) :=
  [("docling-core", "2.87.1"), ("docling-ibm-models", "3.13.3"), ("docling-parse", "7.8.0"), ("docling-slim", "2.113.0")]

/-- `_DOCLING_COMPONENT_KEYS`. -/
def doclingComponentKeys : List String := "docling" :: doclingRequiredComponentVersions.map Prod.fst

/-- `_DOCLING_FALLBACK_REASONS`. -/
def doclingFallbackReasons : List String :=
  ["docling_contract_invalid", "docling_conversion_error", "docling_incomplete_pages", "docling_non_success",
    "docling_parse_failed", "docling_timeout", "docling_unavailable", "docling_version_mismatch"]

def isAlnum (c : CodePoint) : Bool :=
  isDigit c || (0x41 ≤ c.val && c.val ≤ 0x5a) || (0x61 ≤ c.val && c.val ≤ 0x7a)

/-- `_SAFE_COMPONENT_VERSION.fullmatch`. -/
def isSafeComponentVersion : Text → Bool
  | [] => false
  | c :: rest => isAlnum c && rest.length ≤ 63 && rest.all fun c => isAlnum c || (Text.ofString ".+_-").contains c

/-- `_SHA256_HEX.fullmatch`. -/
def isSha256Hex (s : Text) : Bool := s.length = 64 && s.all fun c => isDigit c || (0x61 ≤ c.val && c.val ≤ 0x66)

def isPdf (observed : Text) : Bool := ["pdf", "scanned_pdf"].any fun name => observed = Text.ofString name

/-- The strings of a dictionary, if all its values are strings. -/
def stringFields (fields : List (Text × JsonValue φ)) : Option (List (Text × Text)) :=
  fields.mapM fun
    | (key, .string value) => some (key, value)
    | _ => none

/-- `None`, or what a check makes of a string. -/
def optionalString (ok : Text → Bool) (err : ArchiveError) : Option (JsonValue φ) → Except ArchiveError (Option Text)
  | none => .ok none
  | some .null => .ok none
  | some (.string s) => if ok s then .ok (some s) else .error err
  | some _ => .error err

/-- `_validate_parser_provenance`. -/
def validateParserProvenance (parser : Option (JsonValue φ)) (observed : Text) (rawComponents : JsonValue φ)
    (artifactBundleId fallbackReason : Option (JsonValue φ)) (expectedDoclingBundleId : Option Text) :
    Except ArchiveError (List (Text × Text) × Option Text × Option Text) := do
  let isParser (name : String) := match parser with
    | some (.string s) => s = Text.ofString name
    | _ => false
  let components ← match rawComponents with
    | .object fields => ofOption (.execution "document worker parser provenance is invalid") (stringFields fields)
    | _ => .error (.execution "document worker parser provenance is invalid")
  require (components.all fun field => (doclingComponentKeys.map Text.ofString).contains field.1 && isSafeComponentVersion field.2)
    (.execution "document worker parser provenance is invalid")
  let bundleId ← optionalString isSha256Hex (.execution "document worker artifact identity is invalid") artifactBundleId
  let reason ← optionalString (fun s => (doclingFallbackReasons.map Text.ofString).contains s)
    (.execution "document worker fallback reason is invalid") fallbackReason
  if isParser "docling" then
    require (isPdf observed &&
        doclingRequiredComponentVersions.all (fun version =>
          components.lookup (Text.ofString version.1) = some (Text.ofString version.2)) &&
        bundleId.isSome && bundleId = expectedDoclingBundleId && reason.isNone)
      (.execution "document worker Docling provenance is invalid")
  else
    require components.isEmpty (.execution "document worker returned foreign parser provenance")
  require (reason.isNone || (isParser "pypdf" && isPdf observed && bundleId.isSome && bundleId = expectedDoclingBundleId))
    (.execution "document worker fallback provenance is invalid")
  require (bundleId.isNone || isParser "docling" || reason.isSome)
    (.execution "document worker artifact identity is unexpected")
  require (expectedDoclingBundleId.isSome || (bundleId.isNone && reason.isNone))
    (.execution "document worker returned unconfigured Docling provenance")
  require (expectedDoclingBundleId.isNone || isParser "docling" || reason.isSome)
    (.execution "document worker omitted configured Docling provenance")
  return (JsonPointer.byKey components, bundleId, reason)

/-! ### Blocks -/

/-- `_is_json_scalar`. -/
def isJsonScalar (f : Floats φ) : JsonValue φ → Bool
  | .null => true
  | .string _ => true
  | .bool _ => true
  | .int _ => true
  | .float x => f.isFinite x
  | _ => false

/-- `value == {}` or `value == []`. -/
def isEmptyContainer : JsonValue φ → Bool
  | .object [] => true
  | .array [] => true
  | _ => false

def isString : Option (JsonValue φ) → Bool
  | some (.string _) => true
  | _ => false

/-- `_validate_worker_block`. -/
def validateWorkerBlock (f : Floats φ) (block : Block φ) (observed : Text) : Except ArchiveError Unit := do
  let is (names : List String) := names.any fun name => observed = Text.ofString name
  if is ["docx", "markdown", "pdf", "pptx", "scanned_pdf", "txt"] then
    require (JsonValue.hasKeys block ["locator", "text"] && isString (JsonValue.get? block "text"))
      (.execution "document worker text block is invalid")
  else if is ["csv", "xlsx"] then
    match JsonValue.get? block "cells" with
    | some (.array cells) => do
      require (JsonValue.hasKeys block ["cells", "locator"]) (.execution "document worker table block is invalid")
      require (cells.all (isJsonScalar f)) (.execution "document worker table cell is not a finite scalar")
    | _ => .error (.execution "document worker table block is invalid")
  else if is ["json_file"] then do
    require (JsonValue.hasKeys block ["locator", "value"]) (.execution "document worker JSON block is invalid")
    require ((JsonValue.get? block "value").any fun value => isJsonScalar f value || isEmptyContainer value)
      (.execution "document worker JSON leaf is not a bounded value")
  else if is ["xml_file"] then do
    require ((JsonValue.get? block "locator").isSome && (JsonValue.get? block "tag").isSome &&
        block.all fun field => (["attributes", "locator", "tag", "text"].map Text.ofString).contains field.1)
      (.execution "document worker XML block is invalid")
    require (isString (JsonValue.get? block "tag")) (.execution "document worker XML tag is invalid")
    require ((JsonValue.get? block "text").isNone || isString (JsonValue.get? block "text"))
      (.execution "document worker XML text is invalid")
    match JsonValue.get? block "attributes" with
    | none => .ok ()
    | some (.object attributes) =>
      require (stringFields attributes).isSome (.execution "document worker XML attributes are invalid")
    | some _ => .error (.execution "document worker XML attributes are invalid")
  else if is ["dataset_file", "zip_archive"] then
    match JsonValue.get? block "size", JsonValue.get? block "sha256" with
    | some (.int size), some (.string digest) =>
      require (JsonValue.hasKeys block ["locator", "sha256", "size"] && 0 ≤ size && isSha256Hex digest)
        (.execution "document worker binary block is invalid")
    | _, _ => .error (.execution "document worker binary block is invalid")
  else .error (.execution "document worker block format is unsupported")

/-! ### The result -/

/-- A `DocumentParseResult`. -/
structure DocumentParseResult (φ : Type) where
  document : Block φ
  locators : List Text
  parser : String
  observedCapability : Text
  parserComponents : List (Text × Text)
  artifactBundleId : Option Text
  fallbackReason : Option Text

/-- `_PDF_PAGE_LOCATOR.fullmatch`: the digits of the page. -/
def pdfPage? (locator : Text) : Option Text :=
  let digits := locator.drop 5
  if Text.startsWith (Text.ofString "page:") locator && digits.all isDigit && digits.head?.any (· ≠ digit 0) then some digits
  else none

/-- The check of one page locator; `int` raises for too many digits. -/
def checkPageLocator (limits : DocumentLimits) (locator : Text) : Except ArchiveError Unit := do
  let digits ← ofOption (.execution "document worker page locators are invalid") (pdfPage? locator)
  require (digits.length ≤ maximumDigits) (.value "Exceeds the limit (4300 digits) for integer string conversion")
  require (natOf digits ≤ limits.maximumBlocks) (.execution "document worker page locators are invalid")

/-- The locator of a block, which has to be a dictionary with one. -/
def blockLocator : JsonValue φ → Except ArchiveError (Block φ × Text)
  | .object fields =>
    match JsonValue.get? fields "locator" with
    | some (.string locator) => .ok (fields, locator)
    | _ => .error (.execution "document worker returned a block without a locator")
  | _ => .error (.execution "document worker returned a block without a locator")

/-- A list of strings. -/
def stringItems : JsonValue φ → Option (List Text)
  | .array items => items.mapM fun
    | .string s => some s
    | _ => none
  | _ => none

/-- The bytes that a document is stored as. -/
def encodeDocument (f : Floats φ) (document : JsonValue φ) : Option (List UInt8) :=
  (dumps f false document).bind Utf8.encode

/-- `_validate_worker_result`. -/
def validateWorkerResult (f : Floats φ) (limits : DocumentLimits) (expectedObserved : Text)
    (expectedDoclingBundleId : Option Text) : JsonValue φ → Except ArchiveError (DocumentParseResult φ)
  | .object response => do
    let document ← match JsonValue.get? response "document" with
      | some (.object document) => pure document
      | _ => .error (.execution "document worker omitted its document")
    require (JsonValue.hasKeys document ["blocks", "type"]) (.execution "document worker document schema is invalid")
    let rawBlocks ← match JsonValue.get? document "blocks" with
      | some (.array blocks) => pure blocks
      | _ => .error (.execution "document worker returned invalid blocks")
    require (rawBlocks.length ≤ limits.maximumBlocks) (.execution "document worker returned invalid blocks")
    let located ← rawBlocks.mapM blockLocator
    let blockLocators := located.map Prod.snd
    require ((JsonValue.get? response "locators").bind stringItems = some blockLocators && blockLocators.Nodup)
      (.execution "document worker locators are invalid")
    let isField (key value : String) := match JsonValue.get? response key with
      | some (.string s) => s = Text.ofString value
      | _ => false
    let observed ← match JsonValue.get? response "observed_capability" with
      | some (.string observed) => pure observed
      | _ => .error (.execution "document worker observed format contradicts deterministic routing")
    require (observed = expectedObserved)
      (.execution "document worker observed format contradicts deterministic routing")
    let contract ← ofOption (.execution "document worker observed format is not a normalized document")
      ((documentResultContracts.find? fun entry => Text.ofString entry.1 = observed).map Prod.snd)
    let isDocling := isPdf observed && isField "parser" "docling" && expectedDoclingBundleId.isSome
    require (isField "parser" contract.parser || isDocling) (.execution "document worker parser identity is invalid")
    let (components, bundleId, reason) ← validateParserProvenance (JsonValue.get? response "parser") observed
      ((JsonValue.get? response "parser_components").getD (.object [])) (JsonValue.get? response "artifact_bundle_id")
      (JsonValue.get? response "fallback_reason") expectedDoclingBundleId
    require (match JsonValue.get? document "type" with
      | some (.string type) => type = Text.ofString contract.type
      | _ => false) (.execution "document worker document type is invalid")
    require (blockLocators.all (Text.startsWith (Text.ofString contract.locatorPrefix)))
      (.execution "document worker locator family is invalid")
    if isPdf observed then blockLocators.forM (checkPageLocator limits) else pure ()
    (located.map Prod.fst).forM fun block => validateWorkerBlock f block observed
    let encoded ← ofOption (.execution "document worker returned a non-serializable document")
      (encodeDocument f (.object document))
    require (encoded.length ≤ limits.maximumOutputBytes)
      (.execution "document worker exceeded the decompressed-byte budget")
    return {
      document, locators := blockLocators, parser := if isDocling then "docling" else contract.parser,
      observedCapability := observed, parserComponents := components, artifactBundleId := bundleId, fallbackReason := reason }
  | _ => .error (.execution "document worker response must be an object")

end Fetech.Parsers
