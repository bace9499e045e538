import Fetech.Lib.Url

/-! Query strings as Python's `urllib.parse` reads and writes them: percent escapes of
UTF-8, `+` for a space, pairs between `&`.

Reading is lenient: an escape that is none is kept, bytes that are no UTF-8 become
replacement characters, a pair without a value is dropped. Writing escapes whatever is not
plainly safe, so what was written is read back. -/
namespace Lib.Url

/-! ### UTF-8 with replacement characters -/

/-- The bytes that must follow a first byte. -/
def continuations (b : UInt8) : Nat :=
  if 0xc2 ≤ b ∧ b ≤ 0xdf then 1 else if 0xe0 ≤ b ∧ b ≤ 0xef then 2 else if 0xf0 ≤ b ∧ b ≤ 0xf4 then 3 else 0

/-- The second byte of a sequence rules out overlong forms, surrogates and what is
beyond Unicode. -/
def isSecondByte (first b : UInt8) : Bool :=
  (if first = 0xe0 then 0xa0 else if first = 0xf0 then 0x90 else 0x80) ≤ b &&
    b ≤ (if first = 0xed then 0x9f else if first = 0xf4 then 0x8f else 0xbf)

def isContinuation (b : UInt8) : Bool := 0x80 ≤ b && b ≤ 0xbf

/-- How many bytes one replacement character stands for: as much of a sequence as was
well formed, at least one byte. -/
def illFormedLength : List UInt8 → Nat
  | first :: second :: third :: _ =>
    if continuations first = 0 || !isSecondByte first second then 1
    else if continuations first = 3 && isContinuation third then 3
    else if continuations first = 1 then 1 else 2
  | [first, second] => if continuations first ≤ 1 || !isSecondByte first second then 1 else 2
  | _ => 1

/-- `bytes.decode("utf-8", "replace")`, the first `skip` bytes being read already. -/
def decodeUtf8 : Nat → List UInt8 → List Char
  | _, [] => []
  | skip + 1, _ :: rest => decodeUtf8 skip rest
  | 0, b :: rest =>
    match (b :: rest).toByteArray.utf8DecodeChar? 0 with
    | some c => c :: decodeUtf8 (c.utf8Size - 1) rest
    | none => '\uFFFD' :: decodeUtf8 (illFormedLength (b :: rest) - 1) rest

def encodeUtf8 (s : List Char) : List UInt8 := s.flatMap String.utf8EncodeChar

theorem encodeUtf8_inj {s s' : List Char} (h : encodeUtf8 s = encodeUtf8 s') : s = s' := by
  have hbytes : s.utf8Encode = s'.utf8Encode := congrArg List.toByteArray h
  have hdecoded := congrArg ByteArray.utf8Decode? hbytes
  rw [List.utf8Decode?_utf8Encode, List.utf8Decode?_utf8Encode, Option.some.injEq] at hdecoded
  simpa using congrArg Array.toList hdecoded

theorem length_encodeUtf8_le (s : List Char) : (encodeUtf8 s).length ≤ 4 * s.length := by
  induction s with
  | nil => exact Nat.le_refl _
  | cons ch s ih =>
    have hch : (String.utf8EncodeChar ch).length ≤ 4 := by
      rw [String.length_utf8EncodeChar]
      exact Char.utf8Size_le_four ch
    rw [encodeUtf8, List.flatMap_cons, List.length_append, List.length_cons]
    rw [encodeUtf8] at ih
    omega

/-! ### Escapes -/

/-- `_ALWAYS_SAFE`. -/
def isSafe (c : Char) : Bool := isAlpha c || isDigit c || c == '_' || c == '.' || c == '-' || c == '~'

def hexDigit (n : Nat) : Char := if n < 10 then Char.ofNat (48 + n) else Char.ofNat (55 + n)

def quoteByte (b : UInt8) : List Char := ['%', hexDigit (b.toNat / 16), hexDigit (b.toNat % 16)]

def quoteChar (c : Char) : List Char :=
  if c = ' ' then ['+'] else if isSafe c then [c] else (String.utf8EncodeChar c).flatMap quoteByte

/-- `quote_plus(s)`. -/
def quotePlus (s : List Char) : List Char := s.flatMap quoteChar

def hexValue (c : Char) : Option Nat :=
  if '0' ≤ c ∧ c ≤ '9' then some (c.toNat - 48)
  else if 'a' ≤ c ∧ c ≤ 'f' then some (c.toNat - 87)
  else if 'A' ≤ c ∧ c ≤ 'F' then some (c.toNat - 55)
  else none

/-- `unquote_to_bytes` of ASCII text. -/
def unquoteToBytes : List Char → List UInt8
  | '%' :: a :: b :: rest =>
    match hexValue a, hexValue b with
    | some x, some y => UInt8.ofNat (16 * x + y) :: unquoteToBytes rest
    | _, _ => 0x25 :: unquoteToBytes (a :: b :: rest)
  | c :: rest => UInt8.ofNat c.toNat :: unquoteToBytes rest
  | [] => []

/-- `unquote`: every run of ASCII characters is decoded on its own, `run` being the one
that is being read, backwards. -/
def unquoteFrom (run : List Char) : List Char → List Char
  | [] => decodeUtf8 0 (unquoteToBytes run.reverse)
  | c :: rest =>
    if c.val < 128 then unquoteFrom (c :: run) rest
    else decodeUtf8 0 (unquoteToBytes run.reverse) ++ c :: unquoteFrom [] rest

def unquotePlus (s : List Char) : List Char := unquoteFrom [] (s.map fun c => if c = '+' then ' ' else c)

/-! ### Pairs -/

/-- What a piece between two `&` stands for: nothing, unless it has a value. -/
def parsePair (piece : List Char) : Option (List Char × List Char) :=
  if (after '=' piece).isEmpty then none
  else some (unquotePlus (before '=' piece), unquotePlus (after '=' piece))

def parseQsl (query : List Char) : List (List Char × List Char) := (query.splitOn '&').filterMap parsePair

/-- `parse_qsl` with `keep_blank_values`: a pair may lack its value, only empty pieces go. -/
def parseQslKeeping (query : List Char) : List (List Char × List Char) :=
  ((query.splitOn '&').filter (!·.isEmpty)).map fun piece =>
    (unquotePlus (before '=' piece), unquotePlus (after '=' piece))

def writePair (pair : List Char × List Char) : List Char := quotePlus pair.1 ++ '=' :: quotePlus pair.2

def urlencode (pairs : List (List Char × List Char)) : List Char :=
  (List.intersperse ['&'] (pairs.map writePair)).flatten

theorem urlencode_cons (pair next : List Char × List Char) (rest : List (List Char × List Char)) :
    urlencode (pair :: next :: rest) = writePair pair ++ '&' :: urlencode (next :: rest) := rfl

theorem urlencode_singleton (pair : List Char × List Char) : urlencode [pair] = writePair pair :=
  List.append_nil _

end Lib.Url
