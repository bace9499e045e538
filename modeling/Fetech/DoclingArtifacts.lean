import Fetech.Lib.JsonFaults
import Fetech.Lib.PosixPath
import Fetech.Lib.Url
import Fetech.Parsers.Rereading
import Fetech.Storage

/-! Manifests of provisioned model bundles (`fetech/docling_artifacts.py`).

A bundle is a directory tree; what is in it is described by a manifest in its root, or by the tree
itself where there is none. The tree stands still while it is inspected: nothing but the manifest is
written, and every file can be read. A directory that cannot be listed is passed over, as `os.walk`
does. -/
namespace Fetech.DoclingArtifacts
open Lib Lib.Except

abbrev Bytes := List UInt8

/-! ### Trees -/

inductive Node where
  | regular (content : Bytes) (device links : Nat)
  /-- A symbolic link, to a directory or to anything else or nothing. -/
  | link (toDirectory : Bool)
  | special
  | directory (device : Nat) (listable : Bool) (children : List (Text × Node))

namespace Node

/-- What `os.walk` counts among the directories. -/
def isDirectory : Node → Bool
  | link toDirectory => toDirectory
  | directory .. => true
  | _ => false

def children : Node → List (Text × Node)
  | directory _ _ children => children
  | _ => []

def child (root : Node) (name : Text) : Option Node := (root.children.find? (·.1 = name)).map Prod.snd

/-- A new file in a directory. -/
def withFile (name : Text) (content : Bytes) : Node → Node
  | directory device listable children =>
    directory device listable (children ++ [(name, regular content device 1)])
  | node => node

end Node

/-- `names.sort()` -/
def byName {α : Type} (entries : List (Text × α)) : List (Text × α) := entries.insertionSort fun a b => a.1 ≤ b.1

/-- What `os.walk` yields for a directory, the names in order. -/
structure Visit where
  /-- The parts of its path below the root. -/
  directory : List Text
  directoryNames : List (Text × Node)
  fileNames : List (Text × Node)

mutual
/-- `os.walk(root, topdown=True, followlinks=False)`, with names that are sorted on the way. -/
def walk (parts : List Text) : Node → List Visit
  | .directory _ true children =>
    { directory := parts
      directoryNames := byName (children.filter (·.2.isDirectory))
      fileNames := byName (children.filter (!·.2.isDirectory)) } ::
      (byName (walkChildren parts children)).flatMap Prod.snd
  | _ => []

def walkChildren (parts : List Text) : List (Text × Node) → List (Text × List Visit)
  | [] => []
  | (name, node) :: rest => (name, walk (parts ++ [name]) node) :: walkChildren parts rest
end

/-! ### What a manifest lists -/

structure ArtifactFile where
  path : Text
  size : Nat
  sha256 : Text
  deriving DecidableEq

structure ArtifactModel where
  repository : Text
  revision : Text
  license : Text
  licenseEvidencePath : Text
  sourceUrl : Text
  deriving DecidableEq

structure ArtifactBundle where
  bundleSha256 : String
  files : List ArtifactFile
  models : List ArtifactModel
  totalBytes : Nat
  manifestPresent : Bool
  deriving DecidableEq

variable {φ : Type}

def ArtifactFile.asDict (file : ArtifactFile) : JsonValue φ :=
  .object [(Text.ofString "path", .string file.path), (Text.ofString "sha256", .string file.sha256),
    (Text.ofString "size", .int file.size)]

def ArtifactModel.asDict (model : ArtifactModel) : JsonValue φ :=
  .object [(Text.ofString "license", .string model.license),
    (Text.ofString "license_evidence_path", .string model.licenseEvidencePath),
    (Text.ofString "repository", .string model.repository), (Text.ofString "revision", .string model.revision),
    (Text.ofString "source_url", .string model.sourceUrl)]

def manifestName : Text := Text.ofString "fetech-docling-bundle.v1.json"
def bundleSchema : Text := Text.ofString "fetech.docling-artifact-bundle.v1"
def contentSchema : Text := Text.ofString "fetech.docling-artifact-content.v1"
def slimVersion : Text := Text.ofString "2.113.0"

def maximumFiles : Nat := 4096
def maximumBytes : Nat := 16 * 1024 * 1024 * 1024
def maximumFileBytes : Nat := 8 * 1024 * 1024 * 1024
def maximumDirectories : Nat := 1024
def maximumDepth : Nat := 16
def maximumPathBytes : Nat := 1024
def maximumManifestBytes : Nat := 2 * 1024 * 1024

inductive Raised where
  /-- `DoclingArtifactBundleError` -/
  | bundle (message : String)
  /-- Another `ValueError`. -/
  | value
  | recursion
  deriving DecidableEq

/-- What is taken from the interpreter and its library. -/
structure Platform (φ : Type) extends Parsers.ReaderLibrary φ where
  /-- `x == n` -/
  floatEquals : φ → Nat → Bool
  nfc : Text → Text
  casefold : Text → Text
  /-- A character of a category `C…`. -/
  isOther : CodePoint → Bool
  isOther_surrogate : ∀ c, c.isSurrogate = true → isOther c = true
  urls : Url.Tables
  hash : Storage.Hash

variable (p : Platform φ)

/-! ### Checks -/

def backslash : CodePoint := 0x5c

def invalidPath : Raised := .bundle "Docling artifact manifest path is invalid"

/-- `_validate_relative_path` -/
def validateRelativePath (value : Text) : Except Raised Unit :=
  let candidate := PosixPath.parse value
  require (!value.isEmpty && !value.contains 0 && !value.contains backslash && p.nfc value == value &&
    !value.any p.isOther && value.utf8Length ≤ maximumPathBytes && !candidate.isAbsolute &&
    value == candidate.asPosix && !candidate.tail.contains (Text.ofString "..") && value != manifestName) invalidPath

/-- `_validate_unique_portable_paths` -/
def validateUniquePortablePaths (values : List Text) : Except Raised Unit :=
  require (values.map fun value => p.casefold (p.nfc value)).Nodup
    (.bundle "Docling artifact paths collide on a portable filesystem")

def isBetween (first last : Char) (c : CodePoint) : Bool := first.toNat ≤ c.val && c.val ≤ last.toNat

/-- A lower-case hexadecimal digit. -/
def isHex (c : CodePoint) : Bool := isBetween '0' '9' c || isBetween 'a' 'f' c

def isAlphanumeric (c : CodePoint) : Bool := isBetween '0' '9' c || isBetween 'A' 'Z' c || isBetween 'a' 'z' c

/-- `[A-Za-z0-9][A-Za-z0-9…]{0,n}`, with the other characters that may follow. -/
def isWord (others : String) (n : Nat) : Text → Bool
  | [] => false
  | c :: rest =>
    isAlphanumeric c && rest.length ≤ n && rest.all fun c => isAlphanumeric c || (Text.ofString others).contains c

/-- `_SHA256_HEX` -/
def isSha256 (s : Text) : Bool := s.length == 64 && s.all isHex

/-- `_HF_REVISION` -/
def isRevision (s : Text) : Bool := 40 ≤ s.length && s.length ≤ 64 && s.all isHex

/-- `_MODEL_REPOSITORY` -/
def isRepository (s : Text) : Bool :=
  match s.splitOn slash with
  | [owner, name] => isWord "._-" 95 owner && isWord "._-" 95 name
  | _ => false

/-- `_LICENSE_ID` -/
def isLicense (s : Text) : Bool := isWord ".+_-" 63 s

/-- The characters of a text; a surrogate, which `urlsplit` takes like any other character beyond
ASCII, is read as U+FFFD. -/
def charsOf (s : Text) : List Char := s.map fun c => if c.isSurrogate then Char.ofNat 0xfffd else Char.ofNat c.val

def invalidProvenance : Raised := .bundle "Docling artifact model provenance is invalid"

/-- `_validate_model`, of texts. -/
def validateModel (filePaths : List Text) (model : ArtifactModel) : Except Raised Unit := do
  let split ← ofOption .value (Url.urlsplit p.urls (charsOf model.sourceUrl))
  let expectedSourcePath := charsOf (slash :: model.repository ++ Text.ofString "/tree/" ++ model.revision)
  require (isRepository model.repository && isRevision model.revision && isLicense model.license &&
    split.scheme == "https".toList && split.hostname p.urls == "huggingface.co".toList && !split.netloc.contains '@' &&
    Url.rstrip '/' split.path == expectedSourcePath && split.query.isEmpty && split.fragment.isEmpty) invalidProvenance
  validateRelativePath p model.licenseEvidencePath
  require (filePaths.contains model.licenseEvidencePath) (.bundle "Docling artifact license evidence is missing")

/-! ### The scan -/

/-- The variables of the loop. -/
structure Scan where
  records : List ArtifactFile := []
  totalBytes : Nat := 0
  directoryCount : Nat := 0

def digest (content : Bytes) : Text := Text.ofString (p.hash.hexdigest content)

def linkedFile : Raised :=
  .bundle "Docling artifact tree contains a linked, special, cross-device, or oversized file"

/-- The path of an entry below the root. -/
def relativePath (directory : List Text) (name : Text) : Text := [slash].intercalate (directory ++ [name])

def scanFile (excludeManifest : Bool) (device : Nat) (directory : List Text) (s : Scan) (entry : Text × Node) :
    Except Raised Scan := do
  let path := relativePath directory entry.1
  if excludeManifest && path == manifestName then return s
  validateRelativePath p path
  match entry.2 with
  | .regular content fileDevice links =>
    require (fileDevice == device && links == 1 && content.length ≤ maximumFileBytes) linkedFile
    let totalBytes := s.totalBytes + content.length
    require (s.records.length < maximumFiles && totalBytes ≤ maximumBytes)
      (.bundle "Docling artifact tree exceeds its review bounds")
    return {s with records := s.records ++ [{path, size := content.length, sha256 := digest p content}], totalBytes}
  | _ => .error linkedFile

def scanDirectory (device : Nat) (entry : Text × Node) : Except Raised Unit :=
  let linked := .bundle "Docling artifact tree contains a linked, special, or cross-device directory"
  match entry.2 with
  | .directory childDevice _ _ => require (childDevice == device) linked
  | _ => .error linked

def scanVisit (excludeManifest : Bool) (device : Nat) (s : Scan) (visit : Visit) : Except Raised Scan := do
  let s := {s with directoryCount := s.directoryCount + 1}
  require (s.directoryCount ≤ maximumDirectories && visit.directory.length ≤ maximumDepth)
    (.bundle "Docling artifact tree exceeds its directory bounds")
  visit.directoryNames.forM (scanDirectory device)
  visit.fileNames.foldlM (scanFile p excludeManifest device visit.directory) s

/-- `_scan_artifact_files` -/
def scanArtifactFiles (root : Node) (excludeManifest : Bool) : Except Raised (List ArtifactFile) :=
  match root with
  | .directory device _ _ => do
    let s ← (walk [] root).foldlM (scanVisit p excludeManifest device) {}
    validateUniquePortablePaths p (s.records.map ArtifactFile.path)
    return s.records
  | _ => .error (.bundle "Docling artifact root is not a directory")

/-! ### Manifests -/

def totalBytes (files : List ArtifactFile) : Nat := (files.map ArtifactFile.size).sum

def byRepository (models : List ArtifactModel) : List ArtifactModel :=
  models.insertionSort fun a b => a.repository ≤ b.repository

/-- The manifest of files and models. -/
def manifest (files : List ArtifactFile) (models : List ArtifactModel) : JsonValue φ :=
  .object [(Text.ofString "docling_slim_version", .string slimVersion),
    (Text.ofString "file_count", .int files.length),
    (Text.ofString "files", .array (files.map ArtifactFile.asDict)),
    (Text.ofString "models", .array (models.map ArtifactModel.asDict)),
    (Text.ofString "schema", .string bundleSchema),
    (Text.ofString "total_bytes", .int (totalBytes files))]

/-- The identity of a tree without a manifest. -/
def contentPayload (files : List ArtifactFile) : JsonValue φ :=
  .object [(Text.ofString "files", .array (files.map ArtifactFile.asDict)),
    (Text.ofString "schema", .string contentSchema), (Text.ofString "total_bytes", .int (totalBytes files))]

/-- `_canonical_json` -/
def canonicalJson (v : JsonValue φ) : Except Raised Bytes := ofOption .value (Parsers.encodeDocument p.floats v)

/-- `build_docling_artifact_manifest` -/
def buildManifest (root : Node) (models : List ArtifactModel) : Except Raised (JsonValue φ) := do
  require (!models.isEmpty) (.bundle "Docling artifact manifest requires at least one model")
  let files ← scanArtifactFiles p root true
  models.forM (validateModel p (files.map ArtifactFile.path))
  return manifest files (byRepository models)

/-- `value == n`, of a number. -/
def isCount (n : Nat) : JsonValue φ → Bool
  | .int m => m == n
  | .bool b => (if b then 1 else 0) == n
  | .float x => p.floatEquals x n
  | _ => false

def isString (s : Text) : JsonValue φ → Bool
  | .string t => t == s
  | _ => false

def invalidFile : Raised := .bundle "Docling artifact manifest file entry is invalid"

/-- `_parse_file` -/
def parseFile : JsonValue φ → Except Raised ArtifactFile
  | .object fields =>
    if !JsonValue.hasKeys fields ["path", "sha256", "size"] then .error invalidFile
    else match JsonValue.get? fields "path", JsonValue.get? fields "size", JsonValue.get? fields "sha256" with
      | some (.string path), some (.int size), some (.string sha256) => do
        require (0 ≤ size && isSha256 sha256) invalidFile
        validateRelativePath p path
        return {path, size := size.toNat, sha256}
      | _, _, _ => .error invalidFile
  | _ => .error invalidFile

def invalidModel : Raised := .bundle "Docling artifact manifest model entry is invalid"

/-- `_parse_model` -/
def parseModel (filePaths : List Text) : JsonValue φ → Except Raised ArtifactModel
  | .object fields =>
    if !JsonValue.hasKeys fields ["license", "license_evidence_path", "repository", "revision", "source_url"] then
      .error invalidModel
    else match JsonValue.get? fields "repository", JsonValue.get? fields "revision", JsonValue.get? fields "license",
        JsonValue.get? fields "license_evidence_path", JsonValue.get? fields "source_url" with
      | some (.string repository), some (.string revision), some (.string license), some (.string licenseEvidencePath),
        some (.string sourceUrl) => do
        let model := {repository, revision, license, licenseEvidencePath, sourceUrl}
        validateModel p filePaths model
        return model
      | _, _, _, _, _ => .error invalidProvenance
  | _ => .error invalidModel

/-- `_validate_manifest`, the normalized manifest apart: it is the manifest of what is returned. -/
def validateManifest : JsonValue φ → Except Raised (List ArtifactFile × List ArtifactModel)
  | .object fields => do
    let schemaError := .bundle "Docling artifact manifest schema is invalid"
    require (JsonValue.hasKeys fields
      ["docling_slim_version", "file_count", "files", "models", "schema", "total_bytes"]) schemaError
    let field key := ofOption schemaError (JsonValue.get? fields key)
    let schema ← field "schema"
    let version ← field "docling_slim_version"
    require (isString bundleSchema schema && isString slimVersion version)
      (.bundle "Docling artifact manifest version is unsupported")
    match ← field "files", ← field "models" with
    | .array rawFiles, .array rawModels => do
      let files ← rawFiles.mapM (parseFile p)
      require (!files.isEmpty && files.insertionSort (fun a b => a.path ≤ b.path) == files)
        (.bundle "Docling artifact manifest files must be sorted and non-empty")
      let paths := files.map ArtifactFile.path
      require paths.Nodup (.bundle "Docling artifact manifest contains duplicate paths")
      validateUniquePortablePaths p paths
      let fileCount ← field "file_count"
      let total ← field "total_bytes"
      require (isCount p files.length fileCount && isCount p (totalBytes files) total)
        (.bundle "Docling artifact manifest totals are invalid")
      let models ← rawModels.mapM (parseModel p paths)
      require (!models.isEmpty && byRepository models == models && (models.map ArtifactModel.repository).Nodup)
        (.bundle "Docling artifact manifest models are invalid")
      return (files, models)
    | _, _ => .error (.bundle "Docling artifact manifest inventory is invalid")
  | _ => .error (.bundle "Docling artifact manifest schema is invalid")

/-! ### Inspecting and writing -/

def newline : UInt8 := 10

/-- `json.loads` of a manifest. -/
def loadManifest (rawManifest : Bytes) : Except Raised (JsonValue φ) := do
  let invalid := .bundle "Docling artifact manifest is invalid"
  let text ← ofOption invalid (Parsers.decodeJson p.otherEncodings rawManifest)
  let read := JsonText.loadsOrFault p.floats (Parsers.readerHooks p.constant) (p.recursionLimit text) text
  read.mapError fun
    | .malformed => invalid
    | .digits => .value
    | .recursion => .recursion

def unsafeManifest : Raised := .bundle "Docling artifact manifest is unsafe or exceeds its byte limit"

/-- What of a root and its manifest is read. -/
def rawManifest : Node → Node → Except Raised Bytes
  | .directory device _ _, .regular content fileDevice links => do
    require (fileDevice == device && links == 1 && 0 < content.length && content.length ≤ maximumManifestBytes)
      unsafeManifest
    return content
  | _, _ => .error unsafeManifest

/-- `inspect_docling_artifact_bundle` -/
def inspectBundle (root : Node) (requireManifest : Bool := false) : Except Raised ArtifactBundle :=
  match root.child manifestName with
  | some (.link _) => .error (.bundle "Docling artifact manifest cannot be a symbolic link")
  | none => do
    require (!requireManifest) (.bundle "Docling artifact bundle requires a reviewed manifest")
    let files ← scanArtifactFiles p root false
    let payload ← canonicalJson p (contentPayload files)
    return { bundleSha256 := p.hash.hexdigest payload, files, models := [], totalBytes := totalBytes files
             manifestPresent := false }
  | some node => do
    let raw ← rawManifest root node
    let loaded ← loadManifest p raw
    let canonical ← canonicalJson p loaded
    require (raw == canonical ++ [newline]) (.bundle "Docling artifact manifest is not canonical")
    let (expectedFiles, models) ← validateManifest p loaded
    let observedFiles ← scanArtifactFiles p root true
    require (observedFiles == expectedFiles) (.bundle "Docling artifact files do not match the reviewed manifest")
    let payload ← canonicalJson p (manifest expectedFiles models)
    return { bundleSha256 := p.hash.hexdigest payload, files := observedFiles, models
             totalBytes := totalBytes observedFiles, manifestPresent := true }

/-- `write_docling_artifact_manifest`: the tree it leaves, and what it returns or raises. -/
def writeManifest (root : Node) (models : List ArtifactModel) : Node × Except Raised ArtifactBundle :=
  if (root.child manifestName).isSome then (root, .error (.bundle "Docling artifact manifest already exists"))
  else
    match (do canonicalJson p (← buildManifest p root models)) with
    | .error e => (root, .error e)
    | .ok content =>
      let written := root.withFile manifestName (content ++ [newline])
      (written, inspectBundle p written true)

/-- `verify_docling_artifact_bundle` -/
def verifyBundle (root : Node) (expectedSha256 : Text) : Except Raised ArtifactBundle := do
  require (isSha256 expectedSha256) (.bundle "expected Docling artifact SHA-256 is invalid")
  let bundle ← inspectBundle p root true
  require (Text.ofString bundle.bundleSha256 == expectedSha256)
    (.bundle "Docling artifact bundle does not match the expected SHA-256")
  return bundle

end Fetech.DoclingArtifacts
