import Fetech.Lib.Url
import Fetech.Parsers

/-! The format that a document is taken for (`fetech/adapters/documents.py`, `_detect_capability`).

The bytes of a body decide before the suffix of its target does. The parent detects from the target
itself, the worker from no more of it than a suffix. -/
namespace Fetech.Parsers
open Lib

/-! ### What is taken from the library -/

def capitalSigma : CodePoint := 0x3a3
def smallSigma : CodePoint := 0x3c3
def finalSigma : CodePoint := 0x3c2

/-- What a character may be in lower case: a capital sigma has another form at the end of a word. -/
def Lowered (image : CodePoint → Text) (c : CodePoint) (piece : Text) : Prop :=
  piece = image c ∨ c = capitalSigma ∧ piece = [finalSigma]

/-- A text in lower case, one character after the other. -/
inductive Lowers (image : CodePoint → Text) : Text → Text → Prop
  | nil : Lowers image [] []
  | cons {c : CodePoint} {piece s t : Text} (hc : Lowered image c piece) (h : Lowers image s t) :
      Lowers image (c :: s) (piece ++ t)

/-- `str.lower`, with what it makes of one character. -/
structure Lowering where
  lower : Text → Text
  image : CodePoint → Text
  lowers : ∀ s, Lowers image s (lower s)
  ascii : ∀ c : CodePoint, c.val < 0x80 → image c = [if 0x41 ≤ c.val && c.val ≤ 0x5a then Fin.ofNat 0x110000 (c.val + 32) else c]
  image_ne_nil : ∀ c, image c ≠ []
  slash_mem : ∀ c, slash ∈ image c → c = slash
  dot_mem : ∀ c, dot ∈ image c → c = dot
  sigma : image capitalSigma = [smallSigma]

/-- What the detection takes from the library: `sniffs` is whether `csv.Sniffer().sniff` returns. -/
structure FormatLibrary where
  urls : Url.Tables
  lowering : Lowering
  sniffs : Text → Bool
  isPrintable : CodePoint → Bool

/-! ### Bytes -/

def ascii (s : String) : List UInt8 := s.toList.map fun ch => UInt8.ofNat ch.toNat

/-- What follows a start that the bytes have. -/
def dropStart (start bytes : List UInt8) : Option (List UInt8) :=
  if start.isPrefixOf bytes then some (bytes.drop start.length) else none

def isByteIn (low high : UInt8) (b : UInt8) : Bool := low ≤ b && b ≤ high

def isByteDigit (b : UInt8) : Bool := isByteIn 0x30 0x39 b

def isByteLetter (b : UInt8) : Bool := isByteIn 0x41 0x5a b || isByteIn 0x61 0x7a b

def isByteSpace (b : UInt8) : Bool := isByteIn 9 13 b || b = 0x20

/-- The bytes that end in a `\r?\n`, after it. -/
def lineEnd : List UInt8 → Option (List UInt8)
  | 0x0d :: 0x0a :: rest => some rest
  | 0x0a :: rest => some rest
  | _ => none

/-! ### Pointers of Git LFS -/

/-- A line `ext-[A-Za-z0-9-]+ [^\r\n]{1,1024}\r?\n`. -/
def extensionLine (bytes : List UInt8) : Option (List UInt8) := do
  let isName (b : UInt8) := isByteLetter b || isByteDigit b || b = 0x2d
  let isValue (b : UInt8) := b != 0x0d && b != 0x0a
  let rest ← dropStart (ascii "ext-") bytes
  let value ← dropStart (ascii " ") (rest.dropWhile isName)
  if (rest.takeWhile isName).isEmpty then none
  else if 1 ≤ (value.takeWhile isValue).length ∧ (value.takeWhile isValue).length ≤ 1024 then lineEnd (value.dropWhile isValue)
  else none

/-- What follows the lines of extensions. -/
def skipExtensions : Nat → List UInt8 → List UInt8
  | 0, bytes => bytes
  | left + 1, bytes => match extensionLine bytes with
    | some rest => skipExtensions left rest
    | none => bytes

/-- `_GIT_LFS_POINTER.fullmatch`. -/
def isGitLfsPointer (body : List UInt8) : Bool :=
  Option.isSome do
    let isHexByte (b : UInt8) := isByteDigit b || isByteIn 0x61 0x66 b
    let rest ← dropStart (ascii "version https://git-lfs.github.com/spec/v1") body
    let rest ← lineEnd rest
    let oid ← dropStart (ascii "oid sha256:") (skipExtensions rest.length rest)
    if (oid.take 64).length = 64 ∧ (oid.take 64).all isHexByte then
      let rest ← lineEnd (oid.drop 64)
      let size ← dropStart (ascii "size ") rest
      let digits := size.takeWhile isByteDigit
      if digits = [0x30] ∨ (digits ≠ [] ∧ digits.head? ≠ some 0x30) then
        if [[], [0x0d], [0x0a], [0x0d, 0x0a]].contains (size.dropWhile isByteDigit) then some () else none
      else none
    else none

/-! ### Formats -/

/-- `_ZIP_SIGNATURES`. -/
def zipSignatures : List (List UInt8) := [[0x50, 0x4b, 3, 4], [0x50, 0x4b, 5, 6], [0x50, 0x4b, 7, 8]]

/-- The suffixes of containers of office documents. -/
def containerFormats : List (String × String) := [(".docx", "docx"), (".pptx", "pptx"), (".xlsx", "xlsx")]

/-- `_MARKDOWN_SUFFIXES`. -/
def markdownSuffixes : List String := [".markdown", ".md", ".mdown", ".mkd"]

/-- `_TEXT_SUFFIXES`. -/
def textSuffixes : List String := [".text", ".txt"]

/-- The formats of `by_suffix`. -/
def suffixFormats : List (String × String) :=
  [(".csv", "csv"), (".docx", "docx"), (".json", "json_file"), (".pdf", "pdf"), (".pptx", "pptx"), (".xlsx", "xlsx"),
    (".xml", "xml_file"), (".zip", "zip_archive")]

/-- The format that a table has for a suffix. -/
def formatFor (table : List (String × String)) (suffix : Text) : Option String :=
  (table.find? fun entry => Text.ofString entry.1 = suffix).map Prod.snd

def isOneOf (names : List String) (suffix : Text) : Bool := names.any fun name => Text.ofString name = suffix

/-- `\b` after a word. -/
def endsWord : List UInt8 → Bool
  | [] => true
  | b :: _ => !(isByteLetter b || isByteDigit b || b = 0x5f)

/-- What `_JSON_XML_PREFIX.search` finds a match in. -/
def hasJsonXmlPrefix (bytes : List UInt8) : Bool :=
  match bytes.dropWhile isByteSpace with
  | 0x7b :: _ => true
  | 0x5b :: _ => true
  | 0x3c :: 0x3f :: x :: m :: l :: rest =>
    [x, m, l].map (fun b => if isByteIn 0x41 0x5a b then b + 32 else b) = ascii "xml" && endsWord rest
  | 0x3c :: b :: _ => isByteLetter b || b = 0x5f
  | _ => false

section
variable (l : FormatLibrary)

/-- `_looks_like_csv`. -/
def looksLikeCsv (body : List UInt8) : Bool :=
  match Utf8.decode (Utf8.withoutMark (body.take 8192)) with
  | none => false
  | some sample =>
    sample.contains 0x0a && (Text.ofString ",;\t").any (fun delimiter => sample.contains delimiter) && l.sniffs sample

/-- `_looks_like_text`: nine in ten characters may be printed. -/
def looksLikeText (body : List UInt8) : Bool :=
  if body.isEmpty then true
  else if (body.take 8192).contains 0 then false
  else match Utf8.decode (Utf8.withoutMark (body.take 8192)) with
    | none => false
    | some sample =>
      9 * max 1 sample.length ≤ 10 * sample.countP fun c => l.isPrintable c || (Text.ofString "\r\n\t").contains c

/-- `_detect_document_format`, from the suffix of the target. -/
def formatOf (suffix : Text) (body : List UInt8) : String :=
  if (ascii "%PDF-").isPrefixOf body then "pdf"
  else if zipSignatures.any (·.isPrefixOf body) then (formatFor containerFormats suffix).getD "zip_archive"
  else if isOneOf markdownSuffixes suffix then "markdown"
  else if isOneOf textSuffixes suffix then "txt"
  else match formatFor suffixFormats suffix with
    | some format => format
    | none =>
      if hasJsonXmlPrefix (body.take 4096) then
        if ((body.take 4096).dropWhile isByteSpace).head? = some 0x3c then "xml_file" else "json_file"
      else if looksLikeCsv l body then "csv"
      else if looksLikeText l body then "txt"
      else "dataset_file"

/-- A path or a target as a text, and back. -/
def textOf (s : List Char) : Text := s.map CodePoint.ofChar

def charsOf (s : Text) : List Char := s.map fun c => Char.ofNat c.val

/-- `_detect_document_format`; `none` is what `urlsplit` raises. -/
def detectDocumentFormat (target : List Char) (body : List UInt8) : Option String := do
  let parts ← Url.urlsplit l.urls target
  return formatOf l (PosixPath.parse (l.lowering.lower (textOf parts.path))).suffix body

/-- The capabilities that stand for the format of a body. -/
def routedCapabilities : List String := ["dataset_file", "github_raw", "git_lfs", "document_router"]

/-- `_detect_capability`. -/
def detectCapability (requested : String) (target : List Char) (body : List UInt8) : Option String :=
  if !routedCapabilities.contains requested then some requested
  else if requested = "git_lfs" && isGitLfsPointer body then some "git_lfs"
  else detectDocumentFormat l target body

/-- The `target_path` of a request: all that the worker is told of a target. -/
def targetPath (target : List Char) : Option Text := do
  let parts ← Url.urlsplit l.urls target
  return Text.ofString "file" ++ (PosixPath.parse (textOf parts.path)).suffix

end

end Fetech.Parsers
