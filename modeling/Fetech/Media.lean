import Fetech.Lib.Bytes
import Fetech.Lib.Dict
import Fetech.Lib.JsonText
import Fetech.Lib.Loop
import Fetech.Lib.Utf8

/-! Binary readers of media (`fetech/adapters/media.py`): EXIF fields and the dimensions of images.

The readers index and slice with `byteAt` and `slice`, which raise `outside` where Python would raise
`IndexError` or cut the slice short, and every loop has a measure, with `endless` for one that it does
not bound. That neither comes up is proved of each reader. The first bytes that choose the reader are
taken as Python takes them, short or not. -/
namespace Fetech.Media
open Lib Lib.Bytes Lib.Except

inductive MediaError where
  | execution (message : String)
  | unicode
  | outside
  | endless
  deriving DecidableEq

def byteAt (body : List UInt8) (i : Nat) : Except MediaError UInt8 := Bytes.byteAt .outside body i

def slice (body : List UInt8) (lo hi : Nat) : Except MediaError (List UInt8) := Bytes.slice .outside body lo hi

/-- `int.from_bytes(body[lo:hi], order)` -/
def number (order : Order) (body : List UInt8) (lo hi : Nat) : Except MediaError Nat := do
  let digits ← slice body lo hi
  return toNat order digits

/-! ### Text -/

/-- What `_CONTROL_CHARACTERS` matches: all controls but the tab, the line feed and the carriage return. -/
def isControl (c : CodePoint) : Bool := (c.val < 0x20 && c.val ≠ 9 && c.val ≠ 0xa && c.val ≠ 0xd) || c.val = 0x7f

/-- `_CONTROL_CHARACTERS.sub("", value)` -/
def clean (value : Text) : Text := value.filter fun c => !isControl c

/-- `_bounded_text`. -/
def boundedText (value : Text) (maximum : Nat) : Except MediaError Text := do
  let encoded ← ofOption .unicode (Utf8.encode (clean value))
  return if encoded.length ≤ maximum then clean value else Utf8.decodeIgnore (encoded.take maximum)

/-! ### EXIF -/

/-- `_EXIF_TAGS`. -/
def exifTags : List (Nat × String) :=
  [(0x010e, "image_description"), (0x010f, "make"), (0x0110, "model"), (0x0112, "orientation"), (0x011a, "x_resolution"),
    (0x011b, "y_resolution"), (0x0128, "resolution_unit"), (0x0131, "software"), (0x829a, "exposure_time"),
    (0x829d, "f_number"), (0x8827, "iso_speed"), (0x920a, "focal_length"), (0xa002, "pixel_width"),
    (0xa003, "pixel_height"), (0xa403, "white_balance"), (0xa405, "focal_length_35mm")]

/-- `_SENSITIVE_EXIF_TAGS`. -/
def sensitiveExifTags : List Nat := [0x8825, 0x927c, 0x9286, 0xa420, 0xa430, 0xa431, 0xc62f]

/-- `_EXIF_TYPE_SIZES`. -/
def exifTypeSizes : List (Nat × Nat) := [(1, 1), (2, 1), (3, 2), (4, 4), (5, 8), (7, 1), (9, 4), (10, 8)]

/-- An entry of an IFD. -/
structure Entry where
  tag : Nat
  fieldType : Nat
  count : Nat
  valueField : List UInt8

inductive ExifValue where
  | text (value : Text)
  | int (value : Int)
  | texts (values : List Text)
  | ints (values : List Int)
  deriving DecidableEq

def readEntry (tiff : List UInt8) (order : Order) (position : Nat) : Except MediaError Entry := do
  let tag ← number order tiff position (position + 2)
  let fieldType ← number order tiff (position + 2) (position + 4)
  let count ← number order tiff (position + 4) (position + 8)
  let valueField ← slice tiff (position + 8) (position + 12)
  return {tag, fieldType, count, valueField}

/-- `_read_ifd`. -/
def readIfd (tiff : List UInt8) (offset : Nat) (order : Order) : Except MediaError (List Entry × Nat) := do
  require (8 ≤ offset && offset + 2 ≤ tiff.length) (.execution "EXIF IFD offset is out of bounds")
  let count ← number order tiff offset (offset + 2)
  require (count ≤ 512) (.execution "EXIF IFD field count exceeds the bound")
  let entriesEnd := offset + 2 + count * 12
  require (entriesEnd + 4 ≤ tiff.length) (.execution "EXIF IFD is truncated")
  let entries ← (List.range count).mapM fun i => readEntry tiff order (offset + 2 + i * 12)
  let nextIfd ← number order tiff entriesEnd (entriesEnd + 4)
  return (entries, nextIfd)

/-- `[raw[index:index + size] for index in range(0, len(raw), size)]` -/
def units (size : Nat) (raw : List UInt8) : Except MediaError (List (List UInt8)) :=
  (List.range ((raw.length + size - 1) / size)).mapM fun i => slice raw (i * size) (i * size + size)

def one (values : List Int) : ExifValue :=
  match values with
  | [value] => .int value
  | values => .ints (values.take 64)

/-- `f"{numerator}/{denominator}"`, of which the source writes the second number itself if it is zero. -/
def fraction (numerator denominator : Int) : Text :=
  JsonText.writeInt numerator ++ Text.ofString "/" ++ if denominator ≠ 0 then JsonText.writeInt denominator else Text.ofString "0"

/-- `int.from_bytes` of a field that may be signed. -/
def integer (signed : Bool) (order : Order) (raw : List UInt8) : Int := if signed then toInt order raw else toNat order raw

/-- The values of a field, from its bytes. -/
def decodeExifValue (fieldType count : Nat) (raw : List UInt8) (order : Order) : Except MediaError (Option ExifValue) :=
  if fieldType = 2 then do
    let text ← boundedText (Utf8.decodeReplace (raw.reverse.dropWhile (· = 0)).reverse) 1024
    return some (.text text)
  else if fieldType = 1 ∨ fieldType = 7 then
    if count = 1 then do
      let value ← byteAt raw 0
      return some (.int value.toNat)
    else return some (.ints ((raw.take 64).map fun b => (b.toNat : Int)))
  else if fieldType = 3 then do
    let shorts ← units 2 raw
    return some (one (shorts.map (integer false order)))
  else if fieldType = 4 ∨ fieldType = 9 then do
    let integers ← units 4 raw
    return some (one (integers.map (integer (fieldType = 9) order)))
  else if fieldType = 5 ∨ fieldType = 10 then do
    let rationals ← units 8 raw
    let values := rationals.map fun rational => fraction (integer (fieldType = 10) order (rational.take 4))
      (integer (fieldType = 10) order (rational.drop 4))
    return some (match values with
      | [value] => .text value
      | values => .texts (values.take 64))
  else return none

/-- `_read_exif_value`. -/
def readExifValue (tiff : List UInt8) (entry : Entry) (order : Order) : Except MediaError (Option ExifValue) :=
  match exifTypeSizes.lookup entry.fieldType with
  | none => return none
  | some unitSize =>
    if entry.count = 0 ∨ 4096 < entry.count then return none
    else
      let size := unitSize * entry.count
      if 16384 < size then return none
      else if size ≤ 4 then do
        let raw ← slice entry.valueField 0 size
        decodeExifValue entry.fieldType entry.count raw order
      else do
        let offset := toNat order entry.valueField
        require (8 ≤ offset && offset + size ≤ tiff.length) (.execution "EXIF value offset is out of bounds")
        let raw ← slice tiff offset (offset + size)
        decodeExifValue entry.fieldType entry.count raw order

/-- The variables of `_find_tiff_payload`. -/
structure PayloadWalk where
  position : Nat := 2
  found : Option (List UInt8) := none

def exifMark : List UInt8 := [0x45, 0x78, 0x69, 0x66, 0, 0]

/-- One turn of its loop. -/
def payloadTurn (body : List UInt8) : Program PayloadWalk MediaError Bool := do
  let s ← Program.get
  if s.position + 4 ≤ body.length then do
    let first ← .ofExcept (byteAt body s.position)
    if first ≠ 0xff then do
      Program.modify fun s => {s with position := s.position + 1}
      return true
    else do
      let marker ← .ofExcept (byteAt body (s.position + 1))
      Program.modify fun s => {s with position := s.position + 2}
      if marker = 0xd8 ∨ marker = 0xd9 then return true
      else if body.length < s.position + 4 then return false
      else do
        let length ← .ofExcept (number .big body (s.position + 2) (s.position + 4))
        Program.check (2 ≤ length && s.position + 2 + length ≤ body.length) (.execution "JPEG EXIF segment is malformed")
        let segment ← .ofExcept (slice body (s.position + 4) (s.position + 2 + length))
        if marker = 0xe1 ∧ exifMark.isPrefixOf segment then do
          Program.modify fun s => {s with found := some (segment.drop 6)}
          return false
        else do
          Program.modify fun s => {s with position := s.position + length}
          return true
  else return false

/-- `_find_tiff_payload`. -/
def findTiffPayload (body : List UInt8) : Except MediaError (Option (List UInt8)) :=
  if [0x49, 0x49].isPrefixOf body || [0x4d, 0x4d].isPrefixOf body then return some body
  else if !([0xff, 0xd8].isPrefixOf body) then return none
  else do
    let s ← Program.exec (Program.iterate (fun s => body.length - s.position) .endless (payloadTurn body)) {}
    return s.found

/-- The variables of `_extract_exif_metadata`, with the offsets of the IFDs that were read, in order. -/
structure ExifState where
  fields : Dict String ExifValue := .empty
  omittedSensitive : Nat := 0
  queue : List Nat
  visited : List Nat := []
  reads : List Nat := []

/-- What an entry adds. -/
def exifEntry (tiff : List UInt8) (order : Order) (maximumFields : Nat) (entry : Entry) : Program ExifState MediaError Unit := do
  let s ← Program.get
  if entry.tag ∈ sensitiveExifTags then Program.modify fun s => {s with omittedSensitive := s.omittedSensitive + 1}
  else if entry.tag = 0x8769 then
    let subIfd := toNat order entry.valueField
    Program.when (subIfd ∉ s.visited) (Program.modify fun s => {s with queue := s.queue ++ [subIfd]})
  else
    match exifTags.lookup entry.tag with
    | none => pure ()
    | some name =>
      if maximumFields ≤ s.fields.size then pure ()
      else do
        let value ← .ofExcept (readExifValue tiff entry order)
        match value with
        | none => pure ()
        | some value => Program.modify fun s => {s with fields := s.fields.set name value}

/-- `_read_ifd` at an offset, which is noted. -/
def readIfdAt (tiff : List UInt8) (order : Order) (offset : Nat) : Program ExifState MediaError (List Entry × Nat) := do
  Program.modify fun s => {s with reads := s.reads ++ [offset]}
  .ofExcept (readIfd tiff offset order)

/-- One turn of the loop over IFDs. -/
def exifTurn (tiff : List UInt8) (order : Order) (maximumFields : Nat) : Program ExifState MediaError Bool := do
  let s ← Program.get
  match s.queue with
  | [] => return false
  | offset :: queue =>
    if maximumFields ≤ s.fields.size then return false
    else do
      Program.modify fun s => {s with queue}
      if offset ∈ s.visited then return true
      else do
        Program.modify fun s => {s with visited := offset :: s.visited}
        let (entries, nextIfd) ← readIfdAt tiff order offset
        Program.forEach (exifEntry tiff order maximumFields) entries
        Program.when (nextIfd ≠ 0) do
          let s ← Program.get
          Program.when (s.visited.length < 4) (Program.modify fun s => {s with queue := s.queue ++ [nextIfd]})
        return true

/-- The offsets at which an IFD may still be read count for as many entries as it may have. -/
def exifLeft (tiff : List UInt8) (s : ExifState) : Nat :=
  s.queue.length + 515 * ((List.range tiff.length).filter (· ∉ s.visited)).length

/-- What `_extract_exif_metadata` returns; `truncated` is missing where there is no payload. -/
structure ExifMetadata where
  fields : Dict String ExifValue
  omittedSensitiveFields : Nat
  truncated : Option Bool

/-- The loop over the IFDs of a payload, as it ends. -/
def exifLoop (tiff : List UInt8) (order : Order) (maximumFields firstIfd : Nat) : Except MediaError Unit × ExifState :=
  Program.iterate (exifLeft tiff) .endless (exifTurn tiff order maximumFields) {queue := [firstIfd]}

/-- The byte order of a TIFF, by its first two bytes. -/
def byteOrder (tiff : List UInt8) : Order := if [0x49, 0x49].isPrefixOf tiff then .little else .big

/-- `_extract_exif_metadata`, from the payload on. -/
def extractPayload (tiff : List UInt8) (maximumFields : Nat) : Except MediaError ExifMetadata := do
  require (8 ≤ tiff.length && ([0x49, 0x49].isPrefixOf tiff || [0x4d, 0x4d].isPrefixOf tiff))
    (.execution "EXIF TIFF header is malformed")
  let order := byteOrder tiff
  let mark ← number order tiff 2 4
  require (mark = 42) (.execution "EXIF TIFF marker is invalid")
  let firstIfd ← number order tiff 4 8
  match exifLoop tiff order maximumFields firstIfd with
  | (.error err, _) => .error err
  | (.ok (), s) =>
    return {fields := s.fields, omittedSensitiveFields := s.omittedSensitive, truncated := some (!s.queue.isEmpty)}

/-- `_extract_exif_metadata`. -/
def extractExifMetadata (body : List UInt8) (maximumFields : Nat) : Except MediaError ExifMetadata := do
  match ← findTiffPayload body with
  | none => return {fields := .empty, omittedSensitiveFields := 0, truncated := none}
  | some tiff => extractPayload tiff maximumFields

end Fetech.Media
