import Fetech.Media.Subtitles
import Fetech.Parsers.Formats
import Fetech.Parsers.Reading
import Fetech.Storage

/-! The document worker and its parent (`fetech/document_worker.py`, `fetech/adapters/documents.py`).

The parent sends a body with its limits and all of the target that the worker needs; the worker
parses it and answers in JSON, which the parent checks as if it came from anyone. PDF and office
documents are parsed by other packages, and `csv`, `xml` and `zipfile` are parameters: what they
make of a text or a body. -/
namespace Fetech.Parsers
open Lib Lib.Except Archive JsonText

/-! ### What is taken from the library -/

/-- An element of an XML document, as `ElementTree` has it. -/
inductive Element where
  | node (tag : Text) (text : Option Text) (attributes : List (Text × Text)) (children : List Element)

def Element.tag : Element → Text
  | .node tag _ _ _ => tag

def Element.children : Element → List Element
  | .node _ _ _ children => children

def leftBrace : CodePoint := 0x7b
def rightBrace : CodePoint := 0x7d
def leftBracket : CodePoint := 0x5b
def rightBracket : CodePoint := 0x5d

/-- A name without a colon. -/
def LocalName (name : Text) : Prop := leftBrace ∉ name ∧ leftBracket ∉ name

/-- The tags that `ElementTree` gives: a name, or one behind its namespace in braces. -/
def IsTag (tag : Text) : Prop :=
  LocalName tag ∨ ∃ uri name, tag = leftBrace :: uri ++ rightBrace :: name ∧ rightBrace ∉ uri ∧ LocalName name

/-- An element whose tags are such, and those of what is in it, and whose attributes are dictionaries. -/
inductive Element.WellFormed : Element → Prop
  | node {tag : Text} {text : Option Text} {attributes : List (Text × Text)} {children : List Element} (htag : IsTag tag)
      (hattributes : (attributes.map Prod.fst).Nodup) (hchildren : ∀ child ∈ children, child.WellFormed) :
      WellFormed (.node tag text attributes children)

/-- What the worker and its parent take from the library. `csv` is the rows that `csv.reader` gives
before it stops, and what it raises then; `engine` parses PDF and office documents. `escapes` is whether
standard output writes a surrogate that stands for a byte as that byte, as it does in the locale `C.UTF-8`
that a worker is given if its parent has no other. -/
structure DocumentLibrary (φ : Type) extends ReaderLibrary φ where
  formats : FormatLibrary
  archive : ArchiveReader
  hash : Storage.Hash
  csv : Text → List (List Text) × Option ArchiveError
  xml : List UInt8 → Except ArchiveError Element
  engine : String → List UInt8 → DocumentLimits → Except ArchiveError (Parsed φ)
  ofRatio : ℚ → φ
  toRatio : φ → ℚ
  escapes : Bool
  xml_wellFormed : ∀ body root, xml body = .ok root → root.WellFormed

section
variable {φ : Type}

/-! ### Text, tables and bytes -/

/-- The locator of a block that is counted from one. -/
def countedLocator (kind : String) (index : Nat) : Text := Text.ofString kind ++ writeNat (index + 1)

/-- `_parse_text`. -/
def parseText (capability : String) (body : List UInt8) (limits : DocumentLimits) : Except ArchiveError (Parsed φ) := do
  let lines := Media.splitlines (Utf8.decodeReplace (Utf8.withoutMark body))
  let lines := if lines.isEmpty then [[]] else lines
  require (lines.length ≤ limits.maximumBlocks) (.value "document block limit exceeded")
  let blocks := lines.mapIdx fun index line => blockAt (countedLocator "line:" index) [("text", .string line)]
  return {
    type := if capability = "markdown" then "markdown" else "text", blocks, locators := locators blocks
    parser := if capability = "markdown" then "markdown-text" else "text" }

variable (l : DocumentLibrary φ)

/-- The digest of some bytes. -/
def sha256Text (bytes : List UInt8) : Text := Text.ofString (l.hash.hexdigest bytes)

/-- A block for bytes that were only counted. -/
def bytesBlock (locator : Text) (bytes : List UInt8) : Block φ :=
  blockAt locator [("size", .int bytes.length), ("sha256", .string (sha256Text l bytes))]

/-- `_parse_binary_dataset`. -/
def parseBinaryDataset (body : List UInt8) : Parsed φ :=
  let locator := Text.ofString "byte:0-" ++ writeNat body.length
  {type := "binary_dataset", blocks := [bytesBlock l locator body], locators := [locator], parser := "binary-metadata"}

/-- `_parse_csv`. -/
def parseCsv (body : List UInt8) (limits : DocumentLimits) : Except ArchiveError (Parsed φ) := do
  let (rows, stop) := l.csv (Utf8.decodeReplace (Utf8.withoutMark body))
  require (rows.length ≤ limits.maximumBlocks) (.value "document block limit exceeded")
  match stop with
  | some err => .error err
  | none => pure ()
  let blocks := rows.mapIdx fun index row => blockAt (countedLocator "row:" index) [("cells", .array (row.map .string))]
  return {type := "table", blocks, locators := locators blocks, parser := "csv"}

/-! ### XML -/

/-- What follows a word in any case, if the bytes begin with it and it ends there. -/
def hasWord (word : String) (bytes : List UInt8) : Bool :=
  (bytes.take word.length).map (fun b => if isByteIn 0x61 0x7a b then b - 32 else b) = ascii word && endsWord (bytes.drop word.length)

/-- What `_FORBIDDEN_XML.search` finds a match in. -/
def hasForbiddenXml : List UInt8 → Bool
  | [] => false
  | b :: rest =>
    (b = 0x3c && rest.head? = some 0x21 &&
      ["DOCTYPE", "ENTITY"].any fun word => hasWord word (rest.tail.dropWhile isByteSpace)) || hasForbiddenXml rest

/-- An entry of the stack of `_parse_xml`. -/
structure XmlFrame where
  element : Element
  path : Text
  depth : Nat

/-- `/{tag}[{count}]` -/
def xmlStep (tag : Text) (count : Nat) : Text := slash :: tag ++ leftBracket :: writeNat count ++ [rightBracket]

/-- The block of an element. -/
def xmlBlock (frame : XmlFrame) : Block φ :=
  match frame.element with
  | .node tag text attributes _ =>
    let text := Media.strip (text.getD [])
    blockAt (Text.ofString "xpath:" ++ frame.path) <|
      [("tag", .string tag)] ++ (if text.isEmpty then [] else [("text", .string text)]) ++
        if attributes.isEmpty then []
        else [("attributes", .object ((JsonPointer.byKey attributes).map fun field => (field.1, .string field.2)))]

/-- The children of an element, each counted among those before it with its tag. -/
def xmlChildren (frame : XmlFrame) : List XmlFrame :=
  let children := frame.element.children
  children.mapIdx fun index child =>
    ⟨child, frame.path ++ xmlStep child.tag ((children.take index).countP (·.tag = child.tag) + 1), frame.depth + 1⟩

/-- The loop of `_parse_xml`, from the blocks that are left before the limit; the head of the list is the
top of the stack. -/
def xmlLoop (limits : DocumentLimits) : Nat → List XmlFrame → List (Block φ) → Except ArchiveError (List (Block φ))
  | _, [], blocks => .ok blocks
  | left, frame :: stack, blocks =>
    if limits.maximumDepth < frame.depth then .error (.value "XML nesting depth limit exceeded")
    else
      match left with
      | 0 => .error (.value "document block limit exceeded")
      | left + 1 => xmlLoop limits left (xmlChildren frame ++ stack) (blocks ++ [xmlBlock frame])

/-- `_parse_xml`. -/
def parseXml (body : List UInt8) (limits : DocumentLimits) : Except ArchiveError (Parsed φ) := do
  require (!hasForbiddenXml body) (.value "XML DTD and entity declarations are forbidden")
  let root ← l.xml body
  let blocks ← xmlLoop limits limits.maximumBlocks [⟨root, xmlStep root.tag 1, 0⟩] []
  return {type := "xml", blocks, locators := locators blocks, parser := "stdlib-xml"}

/-! ### ZIP archives -/

/-- `_zip_member_digest`, with the bytes it read. -/
def zipMember (info : ZipEntry) (maximumBytes : Nat) : Except ArchiveError (List UInt8) := do
  let content ← info.content
  require (content.length ≤ maximumBytes && content.length ≤ info.fileSize) (.value "archive expanded-byte limit exceeded")
  require (content.length = info.fileSize) (.value "archive member size contradicts its directory entry")
  return content

/-- One turn of the loop of `_parse_zip`, from the blocks so far and the bytes that remain. -/
def addZipBlock (s : List (Block φ) × Nat) (info : ZipEntry) : Except ArchiveError (List (Block φ) × Nat) := do
  if info.isDir then return s
  else do
    let content ← zipMember info s.2
    return (s.1 ++ [bytesBlock l (Text.ofString "member:" ++ info.filename) content], s.2 - content.length)

/-- `_parse_zip`. -/
def parseZip (body : List UInt8) (limits : DocumentLimits) : Except ArchiveError (Parsed φ) := do
  let infos ← validateZipContainer l.archive limits body
  let (blocks, _) ← infos.foldlM (addZipBlock l) ([], limits.maximumOutputBytes)
  return {type := "zip_archive", blocks, locators := locators blocks, parser := "stdlib-zip"}

/-! ### `_parse` -/

def engineCapabilities : List String := ["pdf", "scanned_pdf", "docx", "pptx", "xlsx"]

/-- `_parse`, for a target that can be split. A pointer of Git LFS is an `ImportError`. -/
def parse (capability : String) (body : List UInt8) (target : List Char) (limits : DocumentLimits) :
    Except ArchiveError (Parsed φ) := do
  require (body.length ≤ limits.maximumInputBytes) (.value "document body exceeds the parser byte limit")
  let detected := ofOption (.value "Invalid IPv6 URL") (detectDocumentFormat l.formats target body)
  let capability ← if capability = "dataset_file" ∨ capability = "github_raw" then detected
    else if capability = "git_lfs" then
      if isGitLfsPointer body then .error (.library "ImportError") else detected
    else pure capability
  if ["plain_text_file", "txt", "markdown"].contains capability then parseText capability body limits
  else if capability = "dataset_file" then return parseBinaryDataset l body
  else if capability = "csv" then parseCsv l body limits
  else if capability = "json_file" then parseJson l.toInterpreter body limits
  else if capability = "xml_file" then parseXml l body limits
  else if engineCapabilities.contains capability then l.engine capability body limits
  else if capability = "zip_archive" then parseZip l body limits
  else .error (.value ("unsupported document capability: " ++ capability))

/-! ### The request -/

/-- `DOCUMENT_CAPABILITIES`. -/
def documentCapabilities : List String :=
  ["pdf", "scanned_pdf", "docx", "pptx", "xlsx", "csv", "txt", "markdown", "json_file", "xml_file", "zip_archive", "github_raw",
    "git_lfs", "dataset_file"]

/-- A dictionary with names for keys. -/
def named (fields : List (String × JsonValue φ)) : Block φ := fields.map fun field => (Text.ofString field.1, field.2)

def limitFields (limits : DocumentLimits) : List (String × JsonValue φ) :=
  [("maximum_input_bytes", .int limits.maximumInputBytes), ("maximum_output_bytes", .int limits.maximumOutputBytes),
    ("maximum_blocks", .int limits.maximumBlocks), ("maximum_depth", .int limits.maximumDepth),
    ("maximum_archive_members", .int limits.maximumArchiveMembers),
    ("maximum_archive_ratio", .float (l.ofRatio limits.maximumArchiveRatio))]

/-- The fields of the request for a body, without Docling. -/
def requestFields (capability : String) (path : Text) (body : List UInt8) (limits : DocumentLimits) :
    List (String × JsonValue φ) :=
  [("capability", .string (Text.ofString capability)), ("target_path", .string path), ("body", .string (Base64.encode body)),
    ("limits", .object (named (limitFields l limits))), ("docling", .null)]

def documentRequest (capability : String) (path : Text) (body : List UInt8) (limits : DocumentLimits) : JsonValue φ :=
  .object (named (requestFields l capability path body limits))

/-- `_MAX_DOCUMENT_WORKER_STDIN_BYTES`. -/
def maximumWorkerStdin : Nat := 70000000

/-- A positive integer. -/
def positiveInt : Option (JsonValue φ) → Except ArchiveError Nat
  | some (.int n) => if 0 < n then .ok n.toNat else .error (.value "worker integer limits must be positive")
  | _ => .error (.value "worker integer limits must be positive")

/-- `_parse_limits`. -/
def parseLimits : JsonValue φ → Except ArchiveError DocumentLimits
  | .object fields => do
    require (JsonValue.hasKeys fields ["maximum_input_bytes", "maximum_output_bytes", "maximum_blocks", "maximum_depth",
      "maximum_archive_members", "maximum_archive_ratio"]) (.value "worker limits schema is invalid")
    let maximumInputBytes ← positiveInt (JsonValue.get? fields "maximum_input_bytes")
    let maximumOutputBytes ← positiveInt (JsonValue.get? fields "maximum_output_bytes")
    let maximumBlocks ← positiveInt (JsonValue.get? fields "maximum_blocks")
    let maximumDepth ← positiveInt (JsonValue.get? fields "maximum_depth")
    let maximumArchiveMembers ← positiveInt (JsonValue.get? fields "maximum_archive_members")
    let maximumArchiveRatio ← match JsonValue.get? fields "maximum_archive_ratio" with
      | some (.int n) => pure (n : ℚ)
      | some (.float x) => if l.floats.isFinite x then pure (l.toRatio x) else .error (.value "document parser limits must be positive")
      | _ => .error (.value "worker archive ratio must be positive")
    if h : 0 < maximumInputBytes ∧ 0 < maximumOutputBytes ∧ 0 < maximumBlocks ∧ 0 < maximumDepth ∧ 0 < maximumArchiveMembers ∧
        0 < maximumArchiveRatio then
      return {maximumInputBytes, maximumOutputBytes, maximumBlocks, maximumDepth, maximumArchiveMembers, maximumArchiveRatio, positive := h}
    else .error (.value "worker archive ratio must be positive")
  | _ => .error (.value "worker limits schema is invalid")

/-- What `_validate_payload` returns. -/
structure WorkerPayload where
  capability : String
  path : Text
  body : List UInt8
  limits : DocumentLimits

/-- `_validate_payload`, for a request without Docling. -/
def validatePayload : JsonValue φ → Except ArchiveError WorkerPayload
  | .object fields => do
    require (JsonValue.hasKeys fields ["body", "capability", "docling", "limits", "target_path"])
      (.value "worker payload schema is invalid")
    let capability ← match JsonValue.get? fields "capability" with
      | some (.string s) =>
        ofOption (.value "worker capability is not registered")
          (documentCapabilities.find? fun capability => Text.ofString capability = s)
      | _ => .error (.value "worker capability is not registered")
    let path ← match JsonValue.get? fields "target_path" with
      | some (.string path) => do
        let size ← ofOption .unicode path.utf8Length?
        require (size ≤ 8192 && !path.contains 0) (.value "worker target path is invalid")
        pure path
      | _ => .error (.value "worker target path is invalid")
    let body ← match JsonValue.get? fields "body" with
      | some (.string encoded) => ofOption (.value "worker body is not valid base64") (Base64.decode encoded)
      | _ => .error (.value "worker body must be base64 text")
    let limits ← parseLimits l ((JsonValue.get? fields "limits").getD .null)
    require (body.length ≤ limits.maximumInputBytes) (.value "worker body exceeds its input limit")
    match JsonValue.get? fields "docling" with
    | some .null => return {capability, path, body, limits}
    | _ => .error (.value "Docling worker configuration is invalid")
  | _ => .error (.value "worker payload must be an object")

/-! ### The answer -/

def documentFields (parsed : Parsed φ) : List (String × JsonValue φ) :=
  [("type", .string (Text.ofString parsed.type)), ("blocks", .array (parsed.blocks.map .object))]

def documentOf (parsed : Parsed φ) : Block φ := named (documentFields parsed)

/-- The fields of the answer for what was parsed, without Docling. -/
def workerFields (observed : String) (parsed : Parsed φ) : List (String × JsonValue φ) :=
  [("artifact_bundle_id", .null), ("document", .object (documentOf parsed)), ("fallback_reason", .null),
    ("locators", .array (parsed.locators.map .string)), ("parser", .string (Text.ofString parsed.parser)),
    ("parser_components", .object []), ("observed_capability", .string (Text.ofString observed))]

def workerAnswer (observed : String) (parsed : Parsed φ) : Block φ := named (workerFields observed parsed)

/-- `_read_payload`. -/
def readPayload (stdin : List UInt8) : Except ArchiveError (JsonValue φ) := do
  require (stdin.length ≤ maximumWorkerStdin) (.value "worker input exceeded its hard byte limit")
  let text ← ofOption (.value "worker input is not strict JSON") (decodeJson l.otherEncodings stdin)
  ofOption (.value "worker input is not strict JSON") (loads l.floats (readerHooks fun _ => none) (l.recursionLimit text) text)

/-- What the worker does with its input: the format it observed and what it parsed. -/
def answerRequest (stdin : List UInt8) : Except ArchiveError (String × Parsed φ) := do
  let request ← readPayload l stdin
  let payload ← validatePayload l request
  let observed ← ofOption (.value "Invalid IPv6 URL")
    (detectCapability l.formats payload.capability (charsOf payload.path) payload.body)
  let parsed ← parse l observed payload.body (charsOf payload.path) payload.limits
  return (observed, parsed)

structure WorkerExit where
  returncode : Nat
  stdout : List UInt8

/-- What standard output makes of a text; `none` is the `UnicodeEncodeError`. -/
def writeStdout (text : Text) : Option (List UInt8) :=
  if l.escapes then Utf8.encodeSurrogateEscape text else Utf8.encode text

/-- `main`: an answer that standard output cannot hold is a failure. -/
def documentWorker (stdin : List UInt8) : WorkerExit :=
  let answered := do
    let (observed, parsed) ← answerRequest l stdin
    ofOption .unicode ((dumps l.floats false (.object (workerAnswer observed parsed))).bind (writeStdout l))
  match answered with
  | .ok stdout => ⟨0, stdout⟩
  | .error err =>
    if err = .library "ImportError" then ⟨2, ascii "\x7b\"error\":\"dependency_missing\",\"dependency\":\"unknown\"\x7d"⟩
    else ⟨1, ascii "\x7b\"error\":\"parse_failed\"\x7d"⟩

/-! ### The parent -/

/-- The request as the worker is sent it, in ASCII. -/
def encodeRequest (request : JsonValue φ) : Option (List UInt8) :=
  if isWritable l.floats request then Utf8.encode (write l.floats true request) else none

/-- What the parent makes of a worker that has ended: the second half of `DocumentParseWorker.parse`. -/
def receive (limits : DocumentLimits) (expected : String) (process : WorkerExit) :
    Except ArchiveError (DocumentParseResult φ) := do
  require (process.stdout.length ≤ min 100000000 (limits.maximumOutputBytes + 65536))
    (.execution "bounded document parse process failed")
  require (process.returncode ≠ 2)
    (.execution "document parsing requires the matching fetech[documents] dependency or configured connector")
  require (!process.stdout.isEmpty) (.execution "document worker exited without output")
  let text ← ofOption (.execution "document worker returned malformed output") (decodeJson l.otherEncodings process.stdout)
  let response ← ofOption (.execution "document worker returned malformed output")
    (loads l.floats (readerHooks fun _ => none) (l.recursionLimit text) text)
  require (process.returncode = 0) (.execution "bounded document parsing failed")
  validateWorkerResult l.floats limits (Text.ofString expected) none response

/-- `DocumentParseWorker.parse`, without Docling and in time. -/
def parseInWorker (capability : String) (body : List UInt8) (target : List Char) (limits : DocumentLimits) :
    Except ArchiveError (DocumentParseResult φ) := do
  require (documentCapabilities.contains capability) (.execution ("document worker cannot execute " ++ capability))
  require (body.length ≤ limits.maximumInputBytes) (.execution "document body exceeds the worker byte limit")
  let expected ← ofOption (.value "Invalid IPv6 URL") (detectCapability l.formats capability target body)
  let path ← ofOption (.value "Invalid IPv6 URL") (targetPath l.formats target)
  let stdin ← ofOption (.value "Out of range float values are not JSON compliant")
    (encodeRequest l (documentRequest l capability path body limits))
  receive l limits expected (documentWorker l stdin)

end

end Fetech.Parsers
