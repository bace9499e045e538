import Fetech.Archive
import Fetech.Lib.JsonPointer
import Fetech.Lib.Utf8

/-! Bounded parsing of documents into located blocks (`fetech/adapters/documents.py`).

A parser turns a body into blocks, each a dictionary with the locator it came from. `zipfile`,
`csv` and `xml` are parameters: what they make of a body. -/
namespace Fetech.Parsers
open Lib Lib.Except Archive

/-- A `DocumentLimits`, as `__post_init__` lets it be. -/
structure DocumentLimits where
  maximumInputBytes : Nat := 16000000
  maximumOutputBytes : Nat := 50000000
  maximumBlocks : Nat := 10000
  maximumDepth : Nat := 64
  maximumArchiveMembers : Nat := 1000
  maximumArchiveRatio : ℚ := 100
  positive : 0 < maximumInputBytes ∧ 0 < maximumOutputBytes ∧ 0 < maximumBlocks ∧ 0 < maximumDepth ∧
    0 < maximumArchiveMembers ∧ 0 < maximumArchiveRatio := by decide

/-- A dictionary of a document. -/
abbrev Block (φ : Type) := List (Text × JsonValue φ)

/-- What a parser returns. -/
structure Parsed (φ : Type) where
  type : String
  blocks : List (Block φ)
  locators : List Text
  parser : String

variable {φ : Type}

/-- A block at a locator. -/
def blockAt (locator : Text) (rest : List (String × JsonValue φ)) : Block φ :=
  (Text.ofString "locator", .string locator) :: rest.map fun field => (Text.ofString field.1, field.2)

/-! ### ZIP containers -/

/-- `_validate_member_name`. -/
def validateMemberName (name : Text) : Except ArchiveError Unit :=
  let path := PosixPath.parse name
  require (!path.isAbsolute && !path.tail.contains (Text.ofString "..") && !name.contains 0)
    (.value "archive path traversal detected")

/-- The member that a container of office documents must have. -/
def requiredMember : String → Text
  | ".docx" => Text.ofString "word/document.xml"
  | ".pptx" => Text.ofString "ppt/presentation.xml"
  | _ => Text.ofString "xl/workbook.xml"

/-- One turn of the loop of `_validate_zip_container`, from the bytes so far. -/
def checkZipEntry (r : ArchiveReader) (limits : DocumentLimits) (expanded : Nat) (info : ZipEntry) :
    Except ArchiveError Nat := do
  validateMemberName info.filename
  require (!info.isSymlink) (.value "archive symlinks are forbidden")
  require (!info.isEncrypted) (.value "encrypted archive members are unsupported")
  if info.isDir then return expanded
  else do
    require (r.quotient info.fileSize (max 1 info.compressSize) ≤ limits.maximumArchiveRatio)
      (.value "archive compression ratio exceeded")
    require (expanded + info.fileSize ≤ limits.maximumOutputBytes) (.value "archive expanded-byte limit exceeded")
    return expanded + info.fileSize

/-- `_validate_zip_container`. -/
def validateZipContainer (r : ArchiveReader) (limits : DocumentLimits) (body : List UInt8)
    (expectedSuffix : Option String := none) : Except ArchiveError (List ZipEntry) := do
  require (r.isZipfile body) (.value ("malformed " ++ expectedSuffix.getD ".zip" ++ " ZIP container"))
  let infos ← r.zip body
  require (infos.length ≤ limits.maximumArchiveMembers) (.value "archive member limit exceeded")
  let names := infos.map (·.filename)
  require names.Nodup (.value "duplicate archive member names are forbidden")
  let _ ← infos.foldlM (checkZipEntry r limits) 0
  match expectedSuffix with
  | some suffix =>
    require (names.contains (requiredMember suffix)) (.value ("ZIP container is not a valid " ++ suffix ++ " document"))
  | none => pure ()
  return infos

/-! ### JSON -/

/-- What `json` takes from the interpreter: its floating-point numbers, and how deep it gets into a
text, which is a few levels at least. CPython counts the call of a hook as well, so the limit on
lists and objects is not the same for every text. -/
structure Interpreter (φ : Type) where
  floats : JsonText.Floats φ
  recursionLimit : Text → Nat
  shallow : ∀ text, 5 ≤ recursionLimit text

/-- The limit that Python starts with. -/
theorem shallow_thousand : ∀ _ : Text, 5 ≤ 1000 := fun _ => by decide

/-- `_unique_json_object`; `none` is its `ValueError`. -/
def uniqueJsonObject (pairs : List (Text × JsonValue φ)) : Option (List (Text × JsonValue φ)) :=
  if (pairs.map Prod.fst).Nodup then some pairs else none

/-- The hooks of `_parse_json`: `_reject_json_constant` raises for every constant. -/
def documentHooks : JsonText.Hooks φ where
  constant _ := none
  object := uniqueJsonObject

/-- `_json_pointer_token`. -/
def jsonPointerToken (value : Text) : Text :=
  JsonPointer.replace slash (Text.ofString "~1") (JsonPointer.replace JsonPointer.tilde (Text.ofString "~0") value)

/-- An entry of the stack of `_parse_json`. -/
structure JsonFrame (φ : Type) where
  pointer : Text
  value : JsonValue φ
  depth : Nat

/-- The block of a value without children. -/
def jsonBlock (pointer : Text) (value : JsonValue φ) : Block φ :=
  blockAt (Text.ofString "json:" ++ if pointer.isEmpty then [slash] else pointer) [("value", value)]

/-- The blocks that a value gives, and its children in order. -/
def visitJson (frame : JsonFrame φ) : List (Block φ) × List (JsonFrame φ) :=
  match frame.value with
  | .object fields =>
    (if fields.isEmpty then [jsonBlock frame.pointer (.object [])] else [],
      (JsonPointer.byKey fields).map fun field =>
        ⟨frame.pointer ++ slash :: jsonPointerToken field.1, field.2, frame.depth + 1⟩)
  | .array items =>
    (if items.isEmpty then [jsonBlock frame.pointer (.array [])] else [],
      items.zipIdx.map fun item => ⟨frame.pointer ++ slash :: JsonText.writeNat item.2, item.1, frame.depth + 1⟩)
  | value => ([jsonBlock frame.pointer value], [])

/-- `stack.append`, for each of the children in reverse; the head of the list is the top of the stack. -/
def pushReversed (children stack : List (JsonFrame φ)) : List (JsonFrame φ) :=
  children.reverse.foldl (fun stack frame => frame :: stack) stack

/-- The loop of `_parse_json`, from the visits that are left before the limit on blocks. -/
def jsonLoop (limits : DocumentLimits) : Nat → List (JsonFrame φ) → List (Block φ) → Except ArchiveError (List (Block φ))
  | _, [], blocks => .ok blocks
  | left, frame :: stack, blocks =>
    if limits.maximumDepth < frame.depth then .error (.value "JSON nesting depth limit exceeded")
    else
      match left with
      | 0 => .error (.value "document block limit exceeded")
      | left + 1 => jsonLoop limits left (pushReversed (visitJson frame).2 stack) (blocks ++ (visitJson frame).1)

/-- `block["locator"]`. -/
def locatorOf (block : Block φ) : Text :=
  match JsonValue.get? block "locator" with
  | some (.string locator) => locator
  | _ => []

/-- `_locators`. -/
def locators (blocks : List (Block φ)) : List Text := blocks.map locatorOf

/-- `_parse_json`. What `json.loads` raises, or lets a hook raise, is one error here. -/
def parseJson (interpreter : Interpreter φ) (body : List UInt8) (limits : DocumentLimits) :
    Except ArchiveError (Parsed φ) := do
  let text ← ofOption (.value "JSON input is not bounded valid UTF-8") (Utf8.decode (Utf8.withoutMark body))
  let payload ← ofOption (.library "JSONDecodeError")
    (JsonText.loads interpreter.floats documentHooks (interpreter.recursionLimit text) text)
  let blocks ← jsonLoop limits limits.maximumBlocks [⟨[], payload, 0⟩] []
  return {type := "json", blocks, locators := locators blocks, parser := "stdlib-json"}

end Fetech.Parsers
