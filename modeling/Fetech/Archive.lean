import Mathlib.Algebra.Order.Field.Rat
import Fetech.Lib.Base64
import Fetech.Lib.Except
import Fetech.Lib.JsonValue
import Fetech.Lib.PosixPath

/-! Bounded extraction of archive members (`fetech/adapters/archive.py`,
`fetech/archive_worker.py`).

The worker extracts the members of a ZIP or TAR body, the parent checks its answer by the same
rules on names, sizes and contents. `zipfile` and `tarfile` are an `ArchiveReader`: what they
make of a body, and of each member when it is read. -/
namespace Fetech.Archive
open Lib Lib.Except

/-- What is raised: `AdapterExecutionError`, `ValueError` (`unicode` is a `UnicodeEncodeError`),
or what the archive libraries raise. -/
inductive ArchiveError where
  | execution (message : String)
  | value (message : String)
  | unicode
  | library (typeName : String)
  deriving DecidableEq

abbrev Member := Text × List UInt8

/-- `str.casefold` and `str.lower`. -/
structure CaseTables where
  casefold : Text → Text
  lower : Text → Text

/-- An `ArchiveLimits`, as `__post_init__` lets it be. -/
structure ArchiveLimits where
  maximumMembers : Int
  maximumExpanded : Int
  maximumRatio : ℚ
  members_pos : 0 < maximumMembers
  expanded_pos : 0 < maximumExpanded
  one_le_ratio : 1 ≤ maximumRatio

/-- `ArchiveLimits(…)`. -/
def ArchiveLimits.make (maximumMembers maximumExpanded : Int) (maximumRatio : ℚ) : Except ArchiveError ArchiveLimits :=
  if h : 0 < maximumMembers ∧ 0 < maximumExpanded then
    if hratio : 1 ≤ maximumRatio then .ok ⟨maximumMembers, maximumExpanded, maximumRatio, h.1, h.2, hratio⟩
    else .error (.value "archive compression ratio must be at least one")
  else .error (.value "archive integer limits must be positive")

theorem ArchiveLimits.make_fields (limits : ArchiveLimits) :
    make limits.maximumMembers limits.maximumExpanded limits.maximumRatio = .ok limits := by
  rw [make, dif_pos ⟨limits.members_pos, limits.expanded_pos⟩, dif_pos limits.one_le_ratio]

/-! ### Names -/

/-- `_MAX_MEMBER_NAME_BYTES`. -/
def maximumNameBytes : Nat := 4096

def backslash : CodePoint := 0x5c

/-- The characters that `_validate_name` takes for control characters. -/
def isControl (c : CodePoint) : Bool := c.val < 32

/-- `_validate_name`. -/
def validateName (name : Text) : Except ArchiveError Text := do
  require (!name.isEmpty) (.value "archive member name is invalid")
  let size ← ofOption .unicode name.utf8Length?
  require (size ≤ maximumNameBytes && !name.contains backslash && !name.contains 0 && !name.any isControl)
    (.value "archive member name is invalid")
  let path := PosixPath.parse name
  let up := Text.ofString ".."
  require (!path.isAbsolute && !path.tail.contains up && !path.tail.isEmpty) (.value "archive path traversal detected")
  let normalized := path.asPosix
  require (!Text.startsWith [slash] normalized && !Text.startsWith (up ++ [slash]) normalized)
    (.value "archive path traversal detected")
  return normalized

/-- `_record_name`. -/
def recordName (t : CaseTables) (name : Text) (seen : List Text) : Except ArchiveError (List Text) := do
  let portableName := t.casefold name
  require (!seen.contains portableName) (.value "duplicate archive member path detected")
  return portableName :: seen

/-! ### Contents -/

/-- `ARCHIVE_SUFFIXES`. -/
def archiveSuffixes : List Text := [".7z", ".bz2", ".gz", ".rar", ".tar", ".tgz", ".zip"].map Text.ofString

/-- The signatures of `_has_archive_signature`. -/
def signatures : List (List UInt8) :=
  [[0x50, 0x4b, 3, 4], [0x50, 0x4b, 5, 6], [0x50, 0x4b, 7, 8], [0x1f, 0x8b], [0x42, 0x5a, 0x68],
    [0x37, 0x7a, 0xbc, 0xaf, 0x27, 0x1c], [0x52, 0x61, 0x72, 0x21, 0x1a, 0x07]]

/-- `_has_archive_signature`. -/
def hasArchiveSignature (content : List UInt8) : Bool :=
  signatures.any (·.isPrefixOf content) ||
    (262 < content.length && (content.drop 257).take 5 == [0x75, 0x73, 0x74, 0x61, 0x72])

/-- What `_reject_nested` rejects. -/
def isNested (t : CaseTables) (name : Text) (content : List UInt8) : Bool :=
  archiveSuffixes.contains (PosixPath.parse (t.lower name)).suffix || hasArchiveSignature content

/-- `_reject_nested`. -/
def rejectNested (t : CaseTables) (name : Text) (content : List UInt8) : Except ArchiveError Unit :=
  require (!isNested t name content) (.value "nested archives require an explicitly isolated recursive plan")

/-! ### Extraction -/

/-- A `ZipInfo`, and what reading its member gives. -/
structure ZipEntry where
  filename : Text
  externalAttr : Nat := 0
  flagBits : Nat := 0
  fileSize : Nat
  compressSize : Nat
  content : Except ArchiveError (List UInt8)

namespace ZipEntry
variable (info : ZipEntry)

def isDir : Bool := info.filename.getLast? == some slash

/-- `stat.S_ISLNK(info.external_attr >> 16)` -/
def isSymlink : Bool := (info.externalAttr >>> 16) &&& 0o170000 == 0o120000

def isEncrypted : Bool := info.flagBits &&& 1 != 0

end ZipEntry

/-- A `TarInfo`, and what `extractfile` and reading one byte more than the size give. -/
structure TarEntry where
  name : Text
  isSym : Bool := false
  isLnk : Bool := false
  isDev : Bool := false
  isFile : Bool := true
  sparse : Bool := false
  size : Int
  content : Except ArchiveError (Option (List UInt8))

/-- The libraries: `quotient` is the division of a size by another in floating point. -/
structure ArchiveReader where
  tables : CaseTables
  isZipfile : List UInt8 → Bool
  zip : List UInt8 → Except ArchiveError (List ZipEntry)
  tar : List UInt8 → Except ArchiveError (List TarEntry)
  quotient : Int → Int → ℚ

/-- The variables of an extraction. -/
structure Extraction where
  output : List Member := []
  expanded : Int := 0
  seen : List Text := []

variable (r : ArchiveReader)

/-- One turn of the loop of `_extract_zip`. -/
def addZipMember (limits : ArchiveLimits) (s : Extraction) (info : ZipEntry) : Except ArchiveError Extraction := do
  let name ← validateName info.filename
  let seen ← recordName r.tables name s.seen
  require (!info.isSymlink) (.value "archive symlinks are forbidden")
  if info.isDir then return {s with seen}
  else do
    require (!info.isEncrypted) (.value "encrypted archive members are forbidden")
    require (r.quotient info.fileSize (max 1 info.compressSize) ≤ limits.maximumRatio)
      (.value "archive compression ratio exceeded")
    let expanded := s.expanded + info.fileSize
    require (expanded ≤ limits.maximumExpanded) (.value "archive expanded-byte limit exceeded")
    let content ← info.content
    require (content.length = info.fileSize) (.value "archive member size does not match metadata")
    rejectNested r.tables name content
    return {output := s.output ++ [(name, content)], expanded, seen}

/-- `_extract_zip`. -/
def extractZip (body : List UInt8) (limits : ArchiveLimits) : Except ArchiveError (List Member) := do
  let infos ← r.zip body
  require (infos.length ≤ limits.maximumMembers) (.value "archive member limit exceeded")
  let s ← infos.foldlM (addZipMember r limits) {}
  return s.output

/-- One turn of the loop of `_extract_tar`. -/
def addTarMember (body : List UInt8) (limits : ArchiveLimits) (s : Extraction) (member : TarEntry) :
    Except ArchiveError Extraction := do
  let name ← validateName member.name
  let seen ← recordName r.tables name s.seen
  require (!(member.isSym || member.isLnk || member.isDev)) (.value "archive links and devices are forbidden")
  if !member.isFile then return {s with seen}
  else do
    require (!member.sparse) (.value "sparse archive members are forbidden")
    let expanded := s.expanded + member.size
    require (expanded ≤ limits.maximumExpanded) (.value "archive expanded-byte limit exceeded")
    require (r.quotient expanded (max 1 body.length) ≤ limits.maximumRatio) (.value "archive compression ratio exceeded")
    let extracted ← member.content
    let content ← ofOption (.value "archive member could not be read") extracted
    require (content.length = member.size) (.value "archive member size does not match metadata")
    rejectNested r.tables name content
    return {output := s.output ++ [(name, content)], expanded, seen}

/-- `_extract_tar`. -/
def extractTar (body : List UInt8) (limits : ArchiveLimits) : Except ArchiveError (List Member) := do
  let members ← r.tar body
  require (members.length ≤ limits.maximumMembers) (.value "archive member limit exceeded")
  let s ← members.foldlM (addTarMember r body limits) {}
  return s.output

/-- `_extract_members`. -/
def extractMembers (body : List UInt8) (maximumMembers maximumExpanded : Int) (maximumRatio : ℚ) :
    Except ArchiveError (List Member) := do
  let limits ← ArchiveLimits.make maximumMembers maximumExpanded maximumRatio
  require (!body.isEmpty) (.value "archive body cannot be empty")
  if r.isZipfile body then extractZip r body limits
  else match extractTar r body limits with
    | .error (.library "ReadError") => .error (.value "unsupported or malformed archive")
    | result => result

/-! ### The answer of the worker -/

variable {φ : Type}

/-- One member as the worker writes it. -/
def workerMember (member : Member) : JsonValue φ :=
  .object [(Text.ofString "body", .string (Base64.encode member.2)), (Text.ofString "name", .string member.1)]

/-- What the worker writes. -/
def workerResponse (members : List Member) : JsonValue φ :=
  .object [(Text.ofString "members", .array (members.map workerMember))]

/-- One turn of the loop of `_validate_worker_members`. -/
def addWorkerMember (t : CaseTables) (limits : ArchiveLimits) (s : Extraction) (item : JsonValue φ) :
    Except ArchiveError Extraction := do
  match item with
  | .object fields =>
    require (JsonValue.hasKeys fields ["body", "name"]) (.execution "archive worker member schema is invalid")
    match JsonValue.get? fields "name", JsonValue.get? fields "body" with
    | some (.string nameValue), some (.string bodyValue) => do
      let name ← validateName nameValue
      let seen ← recordName t name s.seen
      let content ← ofOption (.execution "archive worker returned invalid base64") (Base64.decode bodyValue)
      let expanded := s.expanded + content.length
      require (expanded ≤ limits.maximumExpanded) (.execution "archive worker exceeded the expanded-byte limit")
      rejectNested t name content
      return {output := s.output ++ [(name, content)], expanded, seen}
    | _, _ => .error (.execution "archive worker member types are invalid")
  | _ => .error (.execution "archive worker member schema is invalid")

/-- `_validate_worker_members`. -/
def validateWorkerMembers (t : CaseTables) (limits : ArchiveLimits) : JsonValue φ → Except ArchiveError (List Member)
  | .object fields => do
    require (JsonValue.hasKeys fields ["members"]) (.execution "archive worker response schema is invalid")
    match JsonValue.get? fields "members" with
    | some (.array rawMembers) => do
      require (rawMembers.length ≤ limits.maximumMembers) (.execution "archive worker member list is invalid")
      let s ← rawMembers.foldlM (addWorkerMember t limits) {}
      return s.output
    | _ => .error (.execution "archive worker member list is invalid")
  | _ => .error (.execution "archive worker response schema is invalid")

end Fetech.Archive
