import Mathlib.Data.List.Sort
import Mathlib.Data.Nat.Digits.Lemmas
import Fetech.Lib.JsonValue

/-! Values as `json.dumps` writes them, without spaces.

A string is its characters between quotes, with an escape for each that cannot stand for itself;
with `ensure_ascii` these are all that are not printable ASCII. An object is its fields as they
come, or sorted (`sortKeys`). -/
namespace Lib.JsonText

def quote : CodePoint := 0x22
def backslash : CodePoint := 0x5c
def letterU : CodePoint := 0x75
def comma : CodePoint := 0x2c
def colon : CodePoint := 0x3a
def minus : CodePoint := 0x2d
def plus : CodePoint := 0x2b
def point : CodePoint := 0x2e
def openBracket : CodePoint := 0x5b
def closeBracket : CodePoint := 0x5d
def openBrace : CodePoint := 0x7b
def closeBrace : CodePoint := 0x7d

/-! ### Strings -/

/-- The characters that are escaped by a letter, each with it. -/
def letters : List (CodePoint × CodePoint) :=
  [(0x22, 0x22), (0x5c, 0x5c), (0x0a, 0x6e), (0x0d, 0x72), (0x09, 0x74), (0x08, 0x62), (0x0c, 0x66)]

def hexDigit (n : Nat) : CodePoint := if n < 10 then Fin.ofNat 0x110000 (0x30 + n) else Fin.ofNat 0x110000 (0x57 + n)

/-- `\uXXXX` -/
def unitEscape (n : Nat) : Text :=
  [backslash, letterU, hexDigit (n / 4096 % 16), hexDigit (n / 256 % 16), hexDigit (n / 16 % 16), hexDigit (n % 16)]

/-- A character that has no letter and cannot stand for itself. -/
def mustEscape (ascii : Bool) (c : CodePoint) : Bool := c.val < 0x20 || (ascii && 0x7e < c.val)

def escape (ascii : Bool) (c : CodePoint) : Text :=
  match letters.lookup c with
  | some letter => [backslash, letter]
  | none =>
    if !mustEscape ascii c then [c]
    else if c.val < 0x10000 then unitEscape c.val
    else unitEscape (0xd800 + (c.val - 0x10000) / 0x400) ++ unitEscape (0xdc00 + (c.val - 0x10000) % 0x400)

def writeString (ascii : Bool) (s : Text) : Text := quote :: s.flatMap (escape ascii) ++ [quote]

/-! ### Numbers -/

def digit (n : Nat) : CodePoint := Fin.ofNat 0x110000 (0x30 + n)

def isDigit (c : CodePoint) : Bool := 0x30 ≤ c.val && c.val ≤ 0x39

def writeNat (n : Nat) : Text := if n = 0 then [digit 0] else ((Nat.digits 10 n).map digit).reverse

/-- `int.__repr__`, of an integer within the limit on digits. -/
def writeInt : Int → Text
  | .ofNat n => writeNat n
  | .negSucc n => minus :: writeNat (n + 1)

/-- Digits, at least one. -/
def Digits (s : Text) : Prop := s ≠ [] ∧ ∀ c ∈ s, isDigit c = true

/-- The whole part of a number: no digit comes after a leading zero. -/
def Whole (s : Text) : Prop := Digits s ∧ (s.head? = some (digit 0) → s = [digit 0])

/-- The text of a number that is not an integer's. -/
structure FloatText (s : Text) : Prop where
  shape : ∃ sign whole fraction exponent : Text, s = sign ++ whole ++ fraction ++ exponent ∧
    (sign = [] ∨ sign = [minus]) ∧ Whole whole ∧
    (fraction = [] ∨ ∃ digits, Digits digits ∧ fraction = point :: digits) ∧
    (exponent = [] ∨ ∃ sign digits, Digits digits ∧ (sign = [] ∨ sign = [minus] ∨ sign = [plus]) ∧
      exponent = 0x65 :: sign ++ digits) ∧
    (fraction ≠ [] ∨ exponent ≠ [])

/-- The floating-point numbers of the platform: `repr` and `float` of a text. -/
structure Floats (φ : Type) where
  isFinite : φ → Bool
  repr : φ → Text
  ofText : Text → φ
  floatText : ∀ x, isFinite x = true → FloatText (repr x)
  ofText_repr : ∀ x, isFinite x = true → ofText (repr x) = x

/-- A platform that has none. -/
def Floats.none : Floats Unit where
  isFinite _ := false
  repr _ := []
  ofText _ := ()
  floatText _ h := nomatch h
  ofText_repr _ h := nomatch h

/-! ### Values -/

variable {φ : Type} (f : Floats φ) (ascii : Bool)

mutual
/-- The text of a value. -/
def write : JsonValue φ → Text
  | .null => Text.ofString "null"
  | .bool b => Text.ofString (if b then "true" else "false")
  | .int n => writeInt n
  | .float x => f.repr x
  | .string s => writeString ascii s
  | .array items => openBracket :: [comma].intercalate (writeItems items) ++ [closeBracket]
  | .object fields => openBrace :: [comma].intercalate (writeFields fields) ++ [closeBrace]

def writeItems : List (JsonValue φ) → List Text
  | [] => []
  | v :: rest => write v :: writeItems rest

def writeFields : List (Text × JsonValue φ) → List Text
  | [] => []
  | (key, v) :: rest => (writeString ascii key ++ colon :: write v) :: writeFields rest
end

theorem writeItems_eq (items : List (JsonValue φ)) : writeItems f ascii items = items.map (write f ascii) := by
  induction items with
  | nil => rfl
  | cons v rest ih => rw [writeItems, ih, List.map_cons]

theorem writeFields_eq (fields : List (Text × JsonValue φ)) :
    writeFields f ascii fields = fields.map fun field => writeString ascii field.1 ++ colon :: write f ascii field.2 := by
  induction fields with
  | nil => rfl
  | cons field rest ih =>
    rw [writeFields, ih]
    rfl

/-- The limit on the digits of an integer that is written or read in decimal. -/
def maximumDigits : Nat := 4300

def writableHere : JsonValue φ → Bool
  | .int n => (writeNat n.natAbs).length ≤ maximumDigits
  | .float x => f.isFinite x
  | _ => true

/-- Whether `dumps` writes a value with `allow_nan=False`: every number in it is finite, and not too long. -/
def isWritable (v : JsonValue φ) : Bool := JsonValue.every (writableHere f) v

mutual
/-- `sort_keys`. -/
def sortKeys : JsonValue φ → JsonValue φ
  | .array items => .array (sortItems items)
  | .object fields => .object ((sortFields fields).insertionSort fun field field' => field.1 ≤ field'.1)
  | v => v

def sortItems : List (JsonValue φ) → List (JsonValue φ)
  | [] => []
  | v :: rest => sortKeys v :: sortItems rest

def sortFields : List (Text × JsonValue φ) → List (Text × JsonValue φ)
  | [] => []
  | (key, v) :: rest => (key, sortKeys v) :: sortFields rest
end

theorem sortItems_eq (items : List (JsonValue φ)) : sortItems items = items.map sortKeys := by
  induction items with
  | nil => rfl
  | cons v rest ih => rw [sortItems, ih, List.map_cons]

theorem sortFields_eq (fields : List (Text × JsonValue φ)) :
    sortFields fields = fields.map fun field => (field.1, sortKeys field.2) := by
  induction fields with
  | nil => rfl
  | cons field rest ih =>
    rw [sortFields, ih]
    rfl

/-- `json.dumps(v, sort_keys=True, separators=(",", ":"), allow_nan=False)`; `none` is its `ValueError`. -/
def dumps (v : JsonValue φ) : Option Text := if isWritable f v then some (write f ascii (sortKeys v)) else none

/-! ### Lengths -/

/-- The length of a character's escape in ASCII. -/
def escapedLength (c : CodePoint) : Nat :=
  if (letters.lookup c).isSome then 2
  else if !mustEscape true c then 1
  else if c.val < 0x10000 then 6
  else 12

theorem length_escape (c : CodePoint) : (escape true c).length = escapedLength c := by
  unfold escape escapedLength
  cases letters.lookup c with
  | some letter => rfl
  | none =>
    simp only [Option.isSome_none, Bool.false_eq_true, if_false]
    split
    · rfl
    · split
      · rfl
      · rfl

theorem length_writeString (s : Text) : (writeString true s).length = 2 + (s.map escapedLength).sum := by
  unfold writeString
  rw [List.length_append, List.length_cons, List.length_flatMap]
  have hsum : (s.map fun c => (escape true c).length) = s.map escapedLength :=
    List.map_congr_left fun c _ => length_escape c
  rw [hsum, List.length_singleton]
  omega

/-- The text of a list is as long as its pieces and what separates them. -/
theorem length_intercalate (pieces : List Text) :
    ([comma].intercalate pieces).length = (pieces.map List.length).sum + (pieces.length - 1) := by
  induction pieces with
  | nil => rfl
  | cons piece rest ih =>
    cases rest with
    | nil => simp
    | cons next rest =>
      rw [List.intercalate_cons_cons, List.length_append, List.length_append, ih]
      simp only [List.map_cons, List.sum_cons, List.length_cons, List.length_nil]
      omega

end Lib.JsonText
