import Fetech.Media

/-! Subtitles (`fetech/adapters/media.py`, `_parse_subtitle_text`).

The parser looks at one line at a time: what it keeps of a file is what it keeps of each line, and
a line of a cue that looks like an identifier, a header or the start of a comment is dropped, while
the lines of a comment after its first are kept. -/
namespace Fetech.Media
open Lib Lib.Bytes Lib.Except

/-! ### Characters -/

/-- `str.isdigit` and what `\d` matches, for one character. -/
structure DigitTables where
  isDigit : CodePoint → Bool
  isDecimal : CodePoint → Bool
  ascii : ∀ c : CodePoint, c.val < 0x80 → isDigit c = JsonText.isDigit c ∧ isDecimal c = JsonText.isDigit c

def lineFeed : CodePoint := 0xa
def carriageReturn : CodePoint := 0xd

/-- `str.isspace`, for one character. -/
def isSpace (c : CodePoint) : Bool :=
  (9 ≤ c.val && c.val ≤ 0xd) || (0x1c ≤ c.val && c.val ≤ 0x20) || c.val = 0x85 || c.val = 0xa0 || c.val = 0x1680 ||
    (0x2000 ≤ c.val && c.val ≤ 0x200a) || c.val = 0x2028 || c.val = 0x2029 || c.val = 0x202f || c.val = 0x205f || c.val = 0x3000

/-- `str.strip` -/
def strip (s : Text) : Text := ((s.dropWhile isSpace).reverse.dropWhile isSpace).reverse

/-- The boundaries of lines but for the line feed and the carriage return. -/
def isOtherBreak (c : CodePoint) : Bool :=
  c.val = 0xb || c.val = 0xc || (0x1c ≤ c.val && c.val ≤ 0x1e) || c.val = 0x85 || c.val = 0x2028 || c.val = 0x2029

def isBreak (c : CodePoint) : Bool := c = lineFeed || c = carriageReturn || isOtherBreak c

/-- The lines of a text, from a line that was begun. -/
def splitFrom (line : Text) : Text → List Text
  | [] => if line = [] then [] else [line]
  | [c] => if isBreak c then [line] else [line ++ [c]]
  | c :: d :: rest =>
    if c = carriageReturn ∧ d = lineFeed then line :: splitFrom [] rest
    else if isBreak c then line :: splitFrom [] (d :: rest)
    else splitFrom (line ++ [c]) (d :: rest)

/-- `str.splitlines` -/
def splitlines (s : Text) : List Text := splitFrom [] s

/-! ### Timings -/

section
variable (t : DigitTables)

def colon : CodePoint := 0x3a
def arrow : Text := Text.ofString "-->"

/-- `(\d{2}):(\d{2})[,.](\d{3})`, and what is left after it. -/
def shortStamp : Text → Option Text
  | a :: b :: c :: d :: e :: f :: g :: h :: i :: rest =>
    if t.isDecimal a && t.isDecimal b && c = colon && t.isDecimal d && t.isDecimal e && (f = 0x2c || f = 0x2e) &&
        t.isDecimal g && t.isDecimal h && t.isDecimal i then some rest
    else none
  | _ => none

/-- `(\d+):` before such a time. -/
def longStamp (s : Text) : Option Text :=
  match s.span t.isDecimal with
  | (_ :: _, c :: rest) => if c = colon then shortStamp t rest else none
  | _ => none

/-- A time with hours or without; what matches the one does not match the other. -/
def stamp (s : Text) : Option Text := (longStamp t s).or (shortStamp t s)

/-- `_SUBTITLE_TIMING.match` of a line. -/
def isTiming (s : Text) : Bool :=
  match stamp t (s.dropWhile isSpace) with
  | none => false
  | some afterStart =>
    let afterSpace := afterStart.dropWhile isSpace
    arrow.isPrefixOf afterSpace &&
      match stamp t ((afterSpace.drop 3).dropWhile isSpace) with
      | none => false
      | some afterStop => afterStop.isEmpty || afterStop.head?.any isSpace

/-! ### The parser -/

/-- The words that a comment starts with. -/
def commentWords : List Text := ["NOTE", "STYLE", "REGION"].map Text.ofString

def webvtt : Text := Text.ofString "WEBVTT"

/-- A line as it is looked at. -/
def tidy (line : Text) : Text := strip (clean line)

inductive LineKind where
  | ignored
  | timing
  | words
  deriving DecidableEq

/-- What the parser takes a line for. -/
def lineKind (stripped : Text) : LineKind :=
  if stripped.isEmpty || stripped = webvtt || stripped.all t.isDigit then .ignored
  else if isTiming t stripped then .timing
  else if commentWords.any (Text.startsWith · stripped) then .ignored
  else .words

/-- `f"cue:{index}"` -/
def cueLocator (index : Nat) : Text := Text.ofString "cue:" ++ JsonText.writeNat index

/-- The variables of the loop. -/
structure SubtitleState where
  output : List Text := []
  locators : List Text := []
  currentLocator : Text := cueLocator 1
  cueIndex : Nat := 0

/-- One turn of the loop. -/
def subtitleTurn (s : SubtitleState) (line : Text) : SubtitleState :=
  match lineKind t (tidy line) with
  | .ignored => s
  | .timing => {s with
      cueIndex := s.cueIndex + 1
      currentLocator := cueLocator (s.cueIndex + 1)
      locators := s.locators ++ [cueLocator (s.cueIndex + 1)] }
  | .words => {s with
      output := s.output ++ [tidy line]
      locators := if s.currentLocator ∈ s.locators then s.locators else s.locators ++ [s.currentLocator] }

/-- `"\n".join(lines)` -/
def joinLines (lines : List Text) : Text := [lineFeed].intercalate lines

/-- The locators that are returned at most. -/
def maximumLocators : Nat := 10000

/-- `_parse_subtitle_text`. -/
def parseSubtitleText (body : List UInt8) (maximumTextBytes : Nat) : Except MediaError (Text × List Text) := do
  require (body.length ≤ maximumTextBytes) (.execution "subtitle text exceeded the configured byte bound")
  let text ← ofOption .unicode (Utf8.decode (Utf8.withoutMark body))
  let s := (splitlines text).foldl (subtitleTurn t) {}
  let normalized := joinLines s.output
  require (!normalized.isEmpty) (.execution "subtitle artifact contains no transcript text")
  let bounded ← boundedText normalized maximumTextBytes
  return (bounded, s.locators.take maximumLocators)

end

/-! ### Files -/

/-- A line of a cue or a comment: no end of a line in it, no arrow, and it can be encoded. -/
structure IsLine (line : Text) : Prop where
  oneLine : lineFeed ∉ line ∧ carriageReturn ∉ line
  noArrow : ¬ arrow <:+: line
  encodable : Text.encodable line = true

/-- A time of a cue. -/
structure Stamp where
  hours : Option Nat
  minutes : Fin 60
  seconds : Fin 60
  millis : Fin 1000
  comma : Bool

def twoDigits (n : Nat) : Text := [JsonText.digit (n / 10), JsonText.digit (n % 10)]

def Stamp.short (stamp : Stamp) : Text :=
  twoDigits stamp.minutes ++ colon :: (twoDigits stamp.seconds ++ (if stamp.comma then 0x2c else 0x2e) ::
    JsonText.digit (stamp.millis / 100) :: twoDigits (stamp.millis % 100))

def Stamp.text (stamp : Stamp) : Text :=
  match stamp.hours with
  | none => stamp.short
  | some hours => (if hours < 10 then JsonText.digit 0 :: JsonText.writeNat hours else JsonText.writeNat hours) ++
      colon :: stamp.short

/-- A blank in a line. -/
def IsBlank (c : CodePoint) : Prop := c = 0x20 ∨ c = 9

/-- A cue: an identifier if it has one, its times, what is written around the arrow and after the times,
and its lines. -/
structure Cue where
  identifier : Option Text
  isNumber : ∀ digits ∈ identifier, JsonText.Digits digits
  start : Stamp
  stop : Stamp
  before : Text
  after : Text
  gaps : ∀ c ∈ before ++ after, IsBlank c
  settings : Text
  separated : ∀ c ∈ settings.head?, IsBlank c
  isLine : IsLine settings
  payload : List Text
  nonempty : ∀ line ∈ payload, line ≠ []
  lines : ∀ line ∈ payload, IsLine line

/-- The line of its times. -/
def Cue.timing (cue : Cue) : Text := cue.start.text ++ (cue.before ++ arrow ++ cue.after) ++ cue.stop.text ++ cue.settings

inductive CommentKind where
  | note
  | style
  | region

def CommentKind.word : CommentKind → Text
  | .note => Text.ofString "NOTE"
  | .style => Text.ofString "STYLE"
  | .region => Text.ofString "REGION"

/-- A comment, a style sheet or a region: what follows the word in its line, and its other lines. -/
structure Comment where
  kind : CommentKind
  rest : Text
  separated : ∀ c ∈ rest.head?, IsBlank c
  first : IsLine (kind.word ++ rest)
  lines : List Text
  nonempty : ∀ line ∈ lines, line ≠ []
  isLine : ∀ line ∈ lines, IsLine line

/-- A line of a file. -/
inductive FileLine where
  | blank
  | number (digits : Text)
  | timing (cue : Cue)
  | payload (line : Text)
  | other (line : Text)

def FileLine.text : FileLine → Text
  | .blank => []
  | .number digits => digits
  | .timing c => c.timing
  | .payload line => line
  | .other line => line

/-- What blank lines stand between; nothing makes for one blank line more. -/
inductive FileBlock where
  | cue (cue : Cue)
  | comment (comment : Comment)
  | nothing

def Cue.fileLines (cue : Cue) : List FileLine :=
  cue.identifier.toList.map .number ++ .timing cue :: cue.payload.map .payload

def FileBlock.lines : FileBlock → List FileLine
  | .cue c => c.fileLines
  | .comment c => .other (c.kind.word ++ c.rest) :: c.lines.map .other
  | .nothing => []

def FileBlock.cues : FileBlock → List Cue
  | .cue c => [c]
  | _ => []

def FileLine.others : FileLine → List Text
  | .timing c => [c.timing]
  | .other line => [line]
  | _ => []

inductive Newline where
  | lf
  | crlf
  | cr

def Newline.text : Newline → Text
  | .lf => [lineFeed]
  | .crlf => [carriageReturn, lineFeed]
  | .cr => [carriageReturn]

/-- An SRT or WebVTT file. -/
structure SubtitleFile where
  header : Option Text
  isHeader : ∀ rest ∈ header, (∀ c ∈ rest.head?, IsBlank c) ∧ IsLine (webvtt ++ rest)
  blocks : List FileBlock
  newline : Newline
  terminated : Bool
  marked : Bool

namespace SubtitleFile

/-- Its lines, but for those between what they stand between. -/
def parts (file : SubtitleFile) : List (List FileLine) :=
  (file.header.toList.map fun rest => [.other (webvtt ++ rest)]) ++ file.blocks.map FileBlock.lines

def lines (file : SubtitleFile) : List FileLine := [FileLine.blank].intercalate file.parts

def text (file : SubtitleFile) : Text :=
  file.newline.text.intercalate (file.lines.map FileLine.text) ++ if file.terminated then file.newline.text else []

def cues (file : SubtitleFile) : List Cue := file.blocks.flatMap FileBlock.cues

/-- The lines of all cues, in order. -/
def payload (file : SubtitleFile) : List Text := file.cues.flatMap Cue.payload

/-- The lines of the header, of times and of comments. -/
def others (file : SubtitleFile) : List Text := file.parts.flatten.flatMap FileLine.others

/-- The bytes of the file, with a mark before them or without. -/
def body (file : SubtitleFile) : List UInt8 :=
  (if file.marked then [0xef, 0xbb, 0xbf] else []) ++ file.text.flatMap Utf8.bytesOf

end SubtitleFile
end Fetech.Media
