import Fetech.Lib.JsonText

/-! Text as `json.loads` reads it.

A value is read from the front of a text, with what is left of it. The scanner calls itself for
what stands in a list or an object, as deep as the limit on recursion lets it; what a duplicate
key and a constant like `NaN` come to is left to the hooks. -/
namespace Lib.JsonText

/-! ### Strings -/

def hexValue? (c : CodePoint) : Option Nat :=
  if isDigit c then some (c.val - 0x30)
  else if 0x61 ≤ c.val ∧ c.val ≤ 0x66 then some (c.val - 0x57)
  else if 0x41 ≤ c.val ∧ c.val ≤ 0x46 then some (c.val - 0x37)
  else none

/-- Four hexadecimal digits. -/
def unit? (a b c d : CodePoint) : Option Nat := do
  let a ← hexValue? a
  let b ← hexValue? b
  let c ← hexValue? c
  let d ← hexValue? d
  return a * 4096 + b * 256 + c * 16 + d

def isHigh (n : Nat) : Bool := 0xd800 ≤ n && n < 0xdc00

def isLow (n : Nat) : Bool := 0xdc00 ≤ n && n < 0xe000

/-- The character of two surrogates. -/
def joined (high low : Nat) : CodePoint := Fin.ofNat 0x110000 (0x10000 + (high - 0xd800) * 0x400 + (low - 0xdc00))

/-- What a letter after a backslash stands for. -/
def letterValue? (letter : CodePoint) : Option CodePoint :=
  if letter = 0x2f then some 0x2f else (letters.find? (·.2 = letter)).map Prod.fst

/-- A character before the string that follows it. -/
def put (c : CodePoint) : Option (Text × Text) → Option (Text × Text) := Option.map fun (s, rest) => (c :: s, rest)

/-- A string from after its opening quote, and what is left after the closing one. -/
def readString : Text → Option (Text × Text)
  | [] => none
  | c :: rest =>
    if c = quote then some ([], rest)
    else if c = backslash then
      match rest with
      | [] => none
      | letter :: rest =>
        if letter = letterU then
          match rest with
          | a :: b :: c :: d :: rest =>
            match unit? a b c d with
            | none => none
            | some n =>
              match rest with
              | e :: u :: a' :: b' :: c' :: d' :: rest' =>
                if isHigh n ∧ e = backslash ∧ u = letterU ∧ (unit? a' b' c' d').any isLow then
                  put (joined n ((unit? a' b' c' d').getD 0)) (readString rest')
                else put (Fin.ofNat 0x110000 n) (readString (e :: u :: a' :: b' :: c' :: d' :: rest'))
              | rest => put (Fin.ofNat 0x110000 n) (readString rest)
          | _ => none
        else
          match letterValue? letter with
          | none => none
          | some c => put c (readString rest)
    else if c.val < 0x20 then none
    else put c (readString rest)

/-! ### Numbers -/

def readWhole : Text → Option (Text × Text)
  | [] => none
  | c :: rest =>
    if c = digit 0 then some ([c], rest)
    else if isDigit c then some (c :: rest.takeWhile isDigit, rest.dropWhile isDigit)
    else none

/-- A fraction, if there is one. -/
def readFraction : Text → Text × Text
  | [] => ([], [])
  | c :: rest =>
    if c = point ∧ rest.takeWhile isDigit ≠ [] then (c :: rest.takeWhile isDigit, rest.dropWhile isDigit)
    else ([], c :: rest)

def readSign : Text → Text × Text
  | [] => ([], [])
  | c :: rest => if c = minus ∨ c = plus then ([c], rest) else ([], c :: rest)

/-- An exponent, if there is one. -/
def readExponent : Text → Text × Text
  | [] => ([], [])
  | c :: rest =>
    let (sign, digits) := readSign rest
    if (c = 0x65 ∨ c = 0x45) ∧ digits.takeWhile isDigit ≠ [] then
      (c :: sign ++ digits.takeWhile isDigit, digits.dropWhile isDigit)
    else ([], c :: rest)

def natOf (digits : Text) : Nat := Nat.ofDigits 10 (digits.reverse.map fun c => c.val - 0x30)

def intOf (sign digits : Text) : Int := if sign = [] then natOf digits else -natOf digits

variable {φ : Type} (f : Floats φ)

def readNumber (s : Text) : Option (JsonValue φ × Text) := do
  let (sign, s) := if s.head? = some minus then ([minus], s.tail) else ([], s)
  let (whole, s) ← readWhole s
  let (fraction, s) := readFraction s
  let (exponent, s) := readExponent s
  if fraction = [] ∧ exponent = [] then do
    guard (whole.length ≤ maximumDigits)
    return (.int (intOf sign whole), s)
  else return (.float (f.ofText (sign ++ whole ++ fraction ++ exponent)), s)

/-! ### Values -/

/-- `parse_constant` and `object_pairs_hook`; `none` is what they raise. -/
structure Hooks (φ : Type) where
  constant : Text → Option φ
  object : List (Text × JsonValue φ) → Option (List (Text × JsonValue φ))

def isSpace (c : CodePoint) : Bool := c.val = 0x20 || c.val = 9 || c.val = 10 || c.val = 13

def skipSpace (s : Text) : Text := s.dropWhile isSpace

def readWord {α : Type} (word : Text) (value : Option α) (s : Text) : Option (α × Text) :=
  if Text.startsWith word s then value.map fun v => (v, s.drop word.length) else none

def readConstant (hooks : Hooks φ) (word : String) (s : Text) : Option (JsonValue φ × Text) :=
  readWord (Text.ofString word) ((hooks.constant (Text.ofString word)).map .float) s

/-- A value that is no string, list or object. -/
def readScalar (hooks : Hooks φ) (s : Text) : Option (JsonValue φ × Text) :=
  readWord (Text.ofString "null") (some .null) s <|> readWord (Text.ofString "true") (some (.bool true)) s <|>
    readWord (Text.ofString "false") (some (.bool false)) s <|> readConstant hooks "NaN" s <|>
    readConstant hooks "Infinity" s <|> readConstant hooks "-Infinity" s <|> readNumber f s

/-- One or more things between commas, up to what closes them; every turn takes a comma off the text. -/
def readMany {α : Type} (one : Text → Option (α × Text)) (close : CodePoint) : Nat → Text → Option (List α × Text)
  | 0, _ => none
  | n + 1, s => do
    let (a, s) ← one s
    match skipSpace s with
    | [] => none
    | c :: s =>
      if c = close then return ([a], s)
      else if c = comma then do
        let (rest, s) ← readMany one close n (skipSpace s)
        return (a :: rest, s)
      else none

/-- What stands in brackets or braces, from after the first. -/
def readAll {α : Type} (one : Text → Option (α × Text)) (close : CodePoint) (s : Text) : Option (List α × Text) :=
  match skipSpace s with
  | [] => none
  | c :: s => if c = close then some ([], s) else readMany one close (s.length + 1) (c :: s)

/-- A key and its value. -/
def readField {α : Type} (value : Text → Option (α × Text)) : Text → Option ((Text × α) × Text)
  | [] => none
  | c :: s =>
    if c ≠ quote then none
    else do
      let (key, s) ← readString s
      match skipSpace s with
      | [] => none
      | c :: s =>
        if c ≠ colon then none
        else do
          let (v, s) ← value (skipSpace s)
          return ((key, v), s)

/-- `scan_once`: a value from the front of a text. Beyond the limit on recursion it raises. -/
def readValue (hooks : Hooks φ) : Nat → Text → Option (JsonValue φ × Text)
  | _, [] => none
  | nesting, c :: s =>
    if c = quote then (readString s).map fun (t, rest) => (.string t, rest)
    else if c = openBracket then
      match nesting with
      | 0 => none
      | nesting + 1 => (readAll (readValue hooks nesting) closeBracket s).map fun (items, rest) => (.array items, rest)
    else if c = openBrace then
      match nesting with
      | 0 => none
      | nesting + 1 => do
        let (fields, rest) ← readAll (readField (readValue hooks nesting)) closeBrace s
        let fields ← hooks.object fields
        return (.object fields, rest)
    else readScalar f hooks (c :: s)

/-- `json.loads`, with its limit on recursion. -/
def loads (hooks : Hooks φ) (nesting : Nat) (s : Text) : Option (JsonValue φ) := do
  let (v, rest) ← readValue f hooks nesting (skipSpace s)
  guard (skipSpace rest).isEmpty
  return v

section
variable {f} {hooks : Hooks φ}

/-! ### What is read has its keys once -/

section
variable {α : Type} {one : Text → Option (α × Text)} {close : CodePoint} {P : α → Prop}

theorem forall_readMany (hone : ∀ s a rest, one s = some (a, rest) → P a) {n : Nat} {s rest : Text} {items : List α}
    (h : readMany one close n s = some (items, rest)) : ∀ a ∈ items, P a := by
  induction n generalizing s items with
  | zero => cases h
  | succ n ih =>
    simp only [readMany, Option.bind_eq_bind, Option.bind_eq_some_iff] at h
    obtain ⟨⟨a, s'⟩, ha, h⟩ := h
    dsimp only at h
    split at h
    · cases h
    · split at h
      · cases h
        exact List.forall_mem_singleton.mpr (hone s a s' ha)
      · split at h
        · obtain ⟨⟨others, s''⟩, hothers, h⟩ := Option.bind_eq_some_iff.mp h
          cases h
          exact List.forall_mem_cons.mpr ⟨hone s a s' ha, ih hothers⟩
        · cases h

theorem forall_readAll (hone : ∀ s a rest, one s = some (a, rest) → P a) {s rest : Text} {items : List α}
    (h : readAll one close s = some (items, rest)) : ∀ a ∈ items, P a := by
  unfold readAll at h
  split at h
  · cases h
  · split at h
    · cases h
      exact fun a ha => nomatch ha
    · exact forall_readMany hone h

end

theorem readField_eq_some {α : Type} {value : Text → Option (α × Text)} {s rest : Text} {field : Text × α}
    (h : readField value s = some (field, rest)) : ∃ s', value s' = some (field.2, rest) := by
  unfold readField at h
  split at h
  · cases h
  · split at h
    · cases h
    · obtain ⟨⟨key, s'⟩, -, h⟩ := Option.bind_eq_some_iff.mp h
      dsimp only at h
      split at h
      · cases h
      · split at h
        · cases h
        · obtain ⟨⟨v, s''⟩, hv, h⟩ := Option.bind_eq_some_iff.mp h
          cases h
          exact ⟨_, hv⟩

theorem readWord_eq_some {α : Type} {word : Text} {value : Option α} {s rest : Text} {v : α}
    (h : readWord word value s = some (v, rest)) : value = some v := by
  unfold readWord at h
  split at h
  · obtain ⟨w, hw, heq⟩ := Option.map_eq_some_iff.mp h
    cases heq
    exact hw
  · cases h

theorem readNumber_eq_some {s rest : Text} {v : JsonValue φ} (h : readNumber f s = some (v, rest)) : v.fitsIn 0 = true := by
  simp only [readNumber, Option.bind_eq_bind, Option.bind_eq_some_iff] at h
  obtain ⟨⟨whole, s'⟩, -, h⟩ := h
  dsimp only at h
  split at h
  · obtain ⟨_, -, h⟩ := Option.bind_eq_some_iff.mp h
    cases h
    rfl
  · cases h
    rfl

/-- What `readScalar` reads is no container. -/
theorem readScalar_eq_some {s rest : Text} {v : JsonValue φ} (h : readScalar f hooks s = some (v, rest)) :
    v.fitsIn 0 = true := by
  have hconstant : ∀ {word : String}, readConstant hooks word s = some (v, rest) → v.fitsIn 0 = true := by
    intro word h
    obtain ⟨x, -, rfl⟩ := Option.map_eq_some_iff.mp (readWord_eq_some h)
    rfl
  simp only [readScalar, Option.orElse_eq_some] at h
  obtain h | ⟨-, h | ⟨-, h | ⟨-, h | ⟨-, h | ⟨-, h | ⟨-, h⟩⟩⟩⟩⟩⟩ := h
  · cases readWord_eq_some h
    rfl
  · cases readWord_eq_some h
    rfl
  · cases readWord_eq_some h
    rfl
  · exact hconstant h
  · exact hconstant h
  · exact hconstant h
  · exact readNumber_eq_some h

theorem hasUniqueKeys_of_fitsIn_zero {v : JsonValue φ} (h : v.fitsIn 0 = true) : v.HasUniqueKeys := by
  cases v with
  | array items => cases h
  | object fields => cases h
  | _ => rfl

/-- **What is read has no key twice**, if the hook for objects sees to it. -/
theorem hasUniqueKeys_readValue
    (hobject : ∀ fields fields', hooks.object fields = some fields' → (fields'.map Prod.fst).Nodup ∧ ∀ field ∈ fields', field ∈ fields)
    {n : Nat} {s rest : Text} {v : JsonValue φ} (h : readValue f hooks n s = some (v, rest)) : v.HasUniqueKeys := by
  induction n generalizing s rest v with
  | zero =>
    unfold readValue at h
    split at h
    · cases h
    · split at h
      · obtain ⟨pair, -, heq⟩ := Option.map_eq_some_iff.mp h
        cases heq
        rfl
      · split at h
        · cases h
        · split at h
          · cases h
          · exact hasUniqueKeys_of_fitsIn_zero (readScalar_eq_some h)
  | succ n ih =>
    unfold readValue at h
    split at h
    · cases h
    · split at h
      · obtain ⟨pair, -, heq⟩ := Option.map_eq_some_iff.mp h
        cases heq
        rfl
      · split at h
        · obtain ⟨⟨items, rest'⟩, hread, heq⟩ := Option.map_eq_some_iff.mp h
          cases heq
          exact (JsonValue.every_array _).mpr ⟨rfl, forall_readAll (fun _ _ _ => ih) hread⟩
        · split at h
          · obtain ⟨⟨fields, rest'⟩, hread, h⟩ := Option.bind_eq_some_iff.mp h
            obtain ⟨fields', hfields', h⟩ := Option.bind_eq_some_iff.mp h
            cases h
            obtain ⟨hkeys, hmem⟩ := hobject fields fields' hfields'
            have hall := forall_readAll (P := fun field : Text × JsonValue φ => field.2.HasUniqueKeys) (fun s field rest hfield => by
              obtain ⟨s', hs'⟩ := readField_eq_some hfield
              exact ih hs') hread
            exact (JsonValue.every_object _).mpr ⟨decide_eq_true hkeys, fun field hfield => hall field (hmem field hfield)⟩
          · exact hasUniqueKeys_of_fitsIn_zero (readScalar_eq_some h)

theorem hasUniqueKeys_loads
    (hobject : ∀ fields fields', hooks.object fields = some fields' → (fields'.map Prod.fst).Nodup ∧ ∀ field ∈ fields', field ∈ fields)
    {n : Nat} {s : Text} {v : JsonValue φ} (h : loads f hooks n s = some v) : v.HasUniqueKeys := by
  obtain ⟨⟨w, rest⟩, hread, h⟩ := Option.bind_eq_some_iff.mp h
  obtain ⟨_, -, h⟩ := Option.bind_eq_some_iff.mp h
  cases h
  exact hasUniqueKeys_readValue hobject hread

end

end Lib.JsonText
