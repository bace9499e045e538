import Fetech.Connector
import Fetech.Lib.Decoding
import Fetech.Lib.JsonFaults
import Fetech.Lib.Loop
import Fetech.Parsers

/-! Reading responses of the Wayback Machine (`fetech/wayback.py`).

The body of a response comes in pieces, each of which is recorded before it is looked at. A compressed
body is decoded piece by piece with `zlib`, of which the machine that takes one byte at a time is a
parameter; what a call of it may return is limited to one byte more than is still allowed.

An availability answer names the capture closest to now. Its locator is checked leniently and written
anew; what was fetched from there is checked strictly, against the time the capture was made. -/
namespace Fetech.Wayback
open Lib Lib.Except Connector Url

/-! ### Bodies -/

/-- The body of a response: its pieces, and what is raised where more was expected. -/
structure Response where
  pieces : List (List UInt8)
  failure : Option ConnectorError := none

/-- All bytes that come in. -/
def Response.bytes (response : Response) : List UInt8 := response.pieces.flatten

/-- The variables of the readers, with what came in, what `zlib` decoded and the limits it was given. -/
structure BodyReader (σ : Type) where
  decoder : Decoding.Decompressor σ UInt8 UInt8
  usage : SnapshotConnectorUsage
  chunks : List (List UInt8) := []
  wireSize : Nat := 0
  decompressedSize : Nat := 0
  received : Nat := 0
  decoded : Nat := 0
  limits : List Int := []

section
variable {σ : Type} (z : Decoding σ UInt8 UInt8)

abbrev Reads (σ α : Type) := Program (BodyReader σ) ConnectorError α

/-- `usage.record` -/
def recordUsage (amount : SnapshotConnectorUsage) : Reads σ Unit := do
  let s ← Program.get
  let usage ← .ofExcept (s.usage.record amount)
  Program.modify fun s => {s with usage}

/-- A piece comes in. -/
def receive (chunk : List UInt8) : Reads σ Unit := Program.modify fun s => {s with received := s.received + chunk.length}

/-- A piece of a body that is not compressed; its size is one more variable of the source. -/
def readPlainChunk (maximumBytes : Int) (chunk : List UInt8) : Reads σ Unit := do
  receive chunk
  Program.modify fun s => {s with wireSize := s.wireSize + chunk.length, decoded := s.decoded + chunk.length}
  recordUsage {wireBytes := chunk.length, decompressedBytes := chunk.length}
  let s ← Program.get
  Program.check (s.wireSize ≤ maximumBytes) (.budget "Wayback response exceeds the byte budget")
  Program.modify fun s => {s with chunks := s.chunks ++ [chunk]}

/-- `sys.maxsize` -/
def maxsize : Int := 2 ^ 63 - 1

/-- `decoder.decompress`; `none` is the `zlib.error`, and a limit may be no negative and no large number. -/
def decompress (chunk : List UInt8) (maximumLength : Int) : Reads σ (Option (List UInt8)) := do
  Program.modify fun s => {s with limits := s.limits ++ [maximumLength]}
  Program.check (0 ≤ maximumLength) (.value "max_length must be non-negative")
  Program.check (maximumLength ≤ maxsize) .other
  let s ← Program.get
  let call := z.decompress s.decoder chunk maximumLength.toNat
  Program.modify fun s => {s with decoded := s.decoded + call.1.length}
  match call.2 with
  | none => return none
  | some (decoded, decoder) => do
    Program.modify fun s => {s with decoder}
    return some decoded

/-- A piece of a compressed body. -/
def readGzipChunk (maximumBytes : Int) (chunk : List UInt8) : Reads σ Unit := do
  receive chunk
  if chunk.isEmpty then pure ()
  else do
    Program.modify fun s => {s with wireSize := s.wireSize + chunk.length}
    recordUsage {wireBytes := chunk.length}
    let s ← Program.get
    Program.check (s.wireSize ≤ maximumBytes) (.budget "Wayback response exceeds the wire byte budget")
    Program.check (!s.decoder.eof) (.execution "Wayback gzip response contains trailing data")
    match ← decompress z chunk (maximumBytes - s.decompressedSize + 1) with
    | none => do
      recordUsage {decompressedBytes := maximumBytes - s.decompressedSize + 1}
      Program.raise (.execution "Wayback gzip response is malformed")
    | some decoded => do
      Program.modify fun s => {s with decompressedSize := s.decompressedSize + decoded.length}
      recordUsage {decompressedBytes := decoded.length}
      let s ← Program.get
      Program.check (s.decompressedSize ≤ maximumBytes) (.budget "Wayback response exceeds the decompressed byte budget")
      Program.modify fun s => {s with chunks := s.chunks ++ [decoded]}
      Program.check s.decoder.unusedData.isEmpty (.execution "Wayback gzip response contains trailing data")
      Program.check s.decoder.unconsumedTail.isEmpty (.budget "Wayback response exceeds the decompressed byte budget")

/-- `async for chunk in response.aiter_raw()` -/
def forPieces (body : List UInt8 → Reads σ Unit) (response : Response) : Reads σ Unit := do
  Program.forEach body response.pieces
  match response.failure with
  | none => pure ()
  | some err => Program.raise err

/-- `_read_bounded_gzip`. -/
def readBoundedGzip (maximumBytes : Int) (response : Response) : Reads σ (List UInt8) := do
  forPieces (readGzipChunk z maximumBytes) response
  let s ← Program.get
  Program.check s.decoder.eof (.execution "Wayback gzip response is truncated")
  return s.chunks.flatten

/-- `_read_bounded`. -/
def readBounded (maximumBytes : Int) (response : Response) (contentEncoding : String) : Reads σ (List UInt8) :=
  if contentEncoding = "gzip" then readBoundedGzip z maximumBytes response
  else do
    forPieces (readPlainChunk maximumBytes) response
    let s ← Program.get
    return s.chunks.flatten

/-- A reader before the first piece. -/
def opened (usage : SnapshotConnectorUsage) : BodyReader σ := {decoder := z.decompressobj, usage}

end

/-! ### Times -/

def isLeap (year : Nat) : Bool := year % 4 = 0 && (year % 100 ≠ 0 || year % 400 = 0)

def daysInMonth (year month : Nat) : Nat :=
  if month = 2 then (if isLeap year then 29 else 28)
  else if month = 4 ∨ month = 6 ∨ month = 9 ∨ month = 11 then 30
  else 31

/-- Whether there is such a time. -/
def isTime (year month day hour minute second : Nat) : Bool :=
  1 ≤ year && year ≤ 9999 && 1 ≤ month && month ≤ 12 && 1 ≤ day && day ≤ daysInMonth year month &&
    hour ≤ 23 && minute ≤ 59 && second ≤ 59

/-- A `datetime` in UTC, to the second. -/
structure Datetime where
  year : Nat
  month : Nat
  day : Nat
  hour : Nat
  minute : Nat
  second : Nat
  valid : isTime year month day hour minute second = true
  deriving DecidableEq

def twoDigits (n : Nat) : List Char := [Char.ofNat (48 + n / 10 % 10), Char.ofNat (48 + n % 10)]

/-- What the connector takes from the interpreter: of text the tables, `bytes.decode` with
`surrogatepass`, and the digits `\d` stands for with their values; of times the year as `%Y` writes it,
which before the year 1000 has as many digits as the C library gives it. -/
structure Platform (φ : Type) extends Parsers.Interpreter φ where
  codecs : Codecs
  decode : String → List UInt8 → Option Text
  decimal : Char → Option Nat
  writeYear : Nat → List Char
  isDecimal_eq : ∀ ch, codecs.isDecimal ch = (decimal ch).isSome
  decimal_ascii : ∀ ch, ch.val < 128 → decimal ch = if isDigit ch then some (ch.toNat - '0'.toNat) else none
  decimal_le : ∀ ch n, decimal ch = some n → n ≤ 9
  isDigit_writeYear : ∀ year, ∀ ch ∈ writeYear year, isDigit ch = true
  writeYear_eq : ∀ year, 1000 ≤ year → year ≤ 9999 → writeYear year = twoDigits (year / 100) ++ twoDigits year

section
variable {φ : Type} (p : Platform φ)

/-- `int` of decimal digits. -/
def Platform.int (digits : List Char) : Option Nat :=
  digits.foldlM (fun n ch => (p.decimal ch).map (10 * n + ·)) 0

/-! Two characters of a field, as the expressions of `strptime` have them. -/

def isMonth (a b : Char) : Bool := (a == '1' && '0' ≤ b && b ≤ '2') || (a == '0' && '1' ≤ b && b ≤ '9')

def isDay (c : Codecs) (a b : Char) : Bool :=
  (a == '3' && '0' ≤ b && b ≤ '1') || ('1' ≤ a && a ≤ '2' && c.isDecimal b) || (a == '0' && '1' ≤ b && b ≤ '9')

def isHour (c : Codecs) (a b : Char) : Bool := (a == '2' && '0' ≤ b && b ≤ '3') || ('0' ≤ a && a ≤ '1' && c.isDecimal b)

def isMinute (c : Codecs) (a b : Char) : Bool := '0' ≤ a && a ≤ '5' && c.isDecimal b

def isSecond (c : Codecs) (a b : Char) : Bool := (a == '6' && '0' ≤ b && b ≤ '1') || ('0' ≤ a && a ≤ '5' && c.isDecimal b)

/-- `datetime.strptime(timestamp, "%Y%m%d%H%M%S")` of 14 digits; `none` is the `ValueError`. A field
may be written with one digit, but all digits are read only if every field takes two. -/
def Platform.strptime : List Char → Option Datetime
  | [y₁, y₂, y₃, y₄, m₁, m₂, d₁, d₂, h₁, h₂, n₁, n₂, s₁, s₂] => do
    guard (isMonth m₁ m₂ && isDay p.codecs d₁ d₂ && isHour p.codecs h₁ h₂ && isMinute p.codecs n₁ n₂ &&
      isSecond p.codecs s₁ s₂)
    let year ← p.int [y₁, y₂, y₃, y₄]
    let month ← p.int [m₁, m₂]
    let day ← p.int [d₁, d₂]
    let hour ← p.int [h₁, h₂]
    let minute ← p.int [n₁, n₂]
    let second ← p.int [s₁, s₂]
    if valid : isTime year month day hour minute second = true then
      return {year, month, day, hour, minute, second, valid}
    else none
  | _ => none

/-- `strftime("%Y%m%d%H%M%S")` -/
def Platform.strftime (time : Datetime) : List Char :=
  p.writeYear time.year ++ (twoDigits time.month ++ (twoDigits time.day ++ (twoDigits time.hour ++
    (twoDigits time.minute ++ twoDigits time.second))))

/-! ### Captures -/

/-- A match of `_CAPTURE_PATH`. -/
structure CaptureMatch where
  timestamp : List Char
  modifier : List Char
  original : List Char
  deriving DecidableEq

/-- `[a-z_]` in any case, with the four letters that Unicode adds. -/
def isModifierChar (ch : Char) : Bool :=
  isAlpha ch || ch == '_' || ch.val == 0x130 || ch.val == 0x131 || ch.val == 0x17f || ch.val == 0x212a

/-- `s` in any case. -/
def isLetterS (ch : Char) : Bool := ch == 's' || ch == 'S' || ch.val == 0x17f

/-- `https?://.+` in any case. -/
def isOriginal (s : List Char) : Bool :=
  let rest := s.drop 4
  let rest := if rest.head?.any isLetterS then rest.tail else rest
  asciiLower (s.take 4) == "http".toList && rest.take 3 == "://".toList && !(rest.drop 3).isEmpty &&
    !(rest.drop 3).contains '\n'

/-- `_CAPTURE_PATH.fullmatch`. The modifier ends where the next character is none of its own. -/
def capturePath (c : Codecs) (s : List Char) : Option CaptureMatch := do
  let timestamp := (s.drop 5).take 14
  let modifier := (s.drop 19).takeWhile isModifierChar
  let rest := (s.drop 19).dropWhile isModifierChar
  guard (asciiLower (s.take 5) = "/web/".toList ∧ timestamp.length = 14 ∧ timestamp.all c.isDecimal ∧
    rest.head? = some '/' ∧ isOriginal rest.tail)
  return {timestamp, modifier, original := rest.tail}

/-- `_SNAPSHOT_HOST`. -/
def snapshotHost : List Char := "web.archive.org".toList

/-- The path of a locator with its query, if there is one. -/
def combined (parts : SplitResult) : List Char := parts.path ++ withQuery parts.query

/-- `_validate_capture_url`. -/
def validateCaptureUrl (c : Codecs) (url : List Char) (original : String) (timestamp : List Char)
    (allowHttp : Bool := false) : Except ConnectorError Unit := do
  let inexact := ConnectorError.execution "Wayback capture locator is not an exact archive origin"
  let parsed ← ofOption inexact (urlsplit c.toTables url)
  let scheme := c.casefold parsed.scheme
  let host := rstrip '.' (c.casefold (parsed.hostname c.toTables))
  let port ← ofOption inexact parsed.port
  require ((scheme = "https".toList ∨ (allowHttp ∧ scheme = "http".toList)) ∧ host = snapshotHost ∧
    '@' ∉ parsed.netloc ∧ parsed.fragment = [] ∧
    (port = none ∨ port = some (if scheme = "https".toList then 443 else 80))) inexact
  let capture ← ofOption (.execution "Wayback capture locator is malformed")
    ((capturePath c (combined parsed)).filter (·.timestamp = timestamp))
  require (allowHttp ∨ capture.modifier = "id_".toList)
    (.execution "Wayback final capture locator is not in raw snapshot mode")
  let embedded ← ofOption (.execution "Wayback capture locator omitted the original source")
    (normalizeUrl c (String.ofList capture.original))
  require (embedded = original) (.execution "Wayback capture locator changed the original source authority")

/-- `_canonical_capture_url`. -/
def canonicalCaptureUrl (c : Codecs) (locator timestamp : List Char) : Except ConnectorError (List Char) := do
  -- What `urlsplit` raises is no error of the connector; the locator was split before.
  let parsed ← ofOption .other (urlsplit c.toTables locator)
  let capture ← ofOption (.execution "Wayback capture locator is malformed") (capturePath c (combined parsed))
  return "https://".toList ++ (snapshotHost ++ ("/web/".toList ++ (timestamp ++ ("id_/".toList ++ capture.original))))

/-! ### Availability -/

/-- `_strict_object`; `none` is its `ValueError`. -/
def strictObject (pairs : List (Text × JsonValue φ)) : Option (List (Text × JsonValue φ)) :=
  if (pairs.map Prod.fst).Nodup then some pairs else none

/-- The hooks of `_parse_availability`: `_reject_constant` raises for every constant. -/
def availabilityHooks : JsonText.Hooks φ where
  constant _ := none
  object := strictObject

/-- `json.detect_encoding` -/
def detectEncoding (body : List UInt8) : String :=
  if [0, 0, 0xfe, 0xff].isPrefixOf body || [0xff, 0xfe, 0, 0].isPrefixOf body then "utf-32"
  else if [0xfe, 0xff].isPrefixOf body || [0xff, 0xfe].isPrefixOf body then "utf-16"
  else if [0xef, 0xbb, 0xbf].isPrefixOf body then "utf-8-sig"
  else
    match body with
    | a :: b :: c :: d :: _ =>
      if a = 0 then (if b ≠ 0 then "utf-16-be" else "utf-32-be")
      else if b = 0 then (if c ≠ 0 ∨ d ≠ 0 then "utf-16-le" else "utf-32-le")
      else "utf-8"
    | [a, b] => if a = 0 then "utf-16-be" else if b = 0 then "utf-16-le" else "utf-8"
    | _ => "utf-8"

/-- `json.loads` of bytes. What it raises, or lets a hook raise, is malformed, but for a `RecursionError`. -/
def Platform.loads (body : List UInt8) : Except ConnectorError (JsonValue φ) := do
  let malformed := .execution "Wayback availability response is malformed"
  let text ← ofOption malformed (p.decode (detectEncoding body) body)
  let read := JsonText.loadsOrFault p.floats availabilityHooks (p.recursionLimit text) text
  read.mapError fun fault => if fault = .recursion then .other else malformed

/-- `_MAX_AVAILABILITY_BYTES`. -/
def maximumAvailabilityBytes : Nat := 256000

/-- `_MAX_ORIGINAL_URL_BYTES`. -/
def maximumOriginalUrlBytes : Nat := 8192

def objectOf (err : ConnectorError) : Option (JsonValue φ) → Except ConnectorError (List (Text × JsonValue φ))
  | some (.object fields) => .ok fields
  | _ => .error err

/-- `status == 200 or status == "200"` -/
def Platform.isFound : Option (JsonValue φ) → Bool
  | some (.int n) => n = 200
  | some (.float x) => p.floats.isFinite x && p.floats.repr x = Text.ofString "200.0"
  | some (.string s) => s = Text.ofString "200"
  | _ => false

def isTrue : Option (JsonValue φ) → Bool
  | some (.bool b) => b
  | _ => false

/-- A text as the libraries for URLs and times take it; a surrogate, which none of them accepts, is NUL. -/
def charsOf (s : Text) : List Char := s.map fun c => Char.ofNat c.val

/-- What `_parse_availability` takes from an answer: the locator and the timestamp of the closest
capture. -/
def Platform.closest (body : List UInt8) : Except ConnectorError (List Char × List Char) := do
  require (!body.isEmpty && body.length ≤ maximumAvailabilityBytes) (.execution "Wayback availability response is invalid")
  let document ← p.loads body
  let document ← objectOf (.execution "Wayback availability response must be an object") (some document)
  let archived ← objectOf (.execution "Wayback availability response omitted snapshots")
    (JsonValue.get? document "archived_snapshots")
  require ((JsonValue.get? archived "closest").any fun found => !(found matches .null))
    (.notFound "no Wayback snapshot is available")
  let closest ← objectOf (.execution "Wayback closest snapshot is invalid") (JsonValue.get? archived "closest")
  let unusable := ConnectorError.notFound "no usable Wayback snapshot is available"
  match JsonValue.get? closest "timestamp", JsonValue.get? closest "url" with
  | some (.string timestamp), some (.string locator) => do
    require (isTrue (JsonValue.get? closest "available") && p.isFound (JsonValue.get? closest "status") &&
      (charsOf timestamp).length = 14 && (charsOf timestamp).all p.codecs.isDecimal && !locator.isEmpty) unusable
    let size ← ofOption (.execution "Wayback response text is invalid") (Text.utf8Length? locator)
    require (size ≤ maximumOriginalUrlBytes) unusable
    return (charsOf locator, charsOf timestamp)
  | _, _ => .error unusable

/-- `_parse_availability`. -/
def Platform.parseAvailability (body : List UInt8) (original : String) : Except ConnectorError (List Char × Datetime) := do
  let (locator, timestamp) ← p.closest body
  validateCaptureUrl p.codecs locator original timestamp true
  let capturedAt ← ofOption (.execution "Wayback capture timestamp is invalid") (p.strptime timestamp)
  let url ← canonicalCaptureUrl p.codecs locator timestamp
  return (url, capturedAt)

/-- The check of `_fetch_snapshot_within_deadline` on the URL that answered. -/
def Platform.validateSnapshot (url : List Char) (original : String) (capturedAt : Datetime) : Except ConnectorError Unit :=
  validateCaptureUrl p.codecs url original (p.strftime capturedAt)

end

end Fetech.Wayback
