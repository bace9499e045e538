import Mathlib.Data.List.Basic
import Mathlib.Tactic.Common

/-! JSON text in ASCII, and that it can be read back.

`dumps` writes strings, arrays and objects as Python's `json.dumps` with its default
`ensure_ascii`: whatever is not printable ASCII becomes `\uXXXX`, above the basic plane
two of them. A character says itself where it ends (`unescape_escapeChar`), so a string
does; a number ends where something else begins. So no text of a value that is followed by
what may follow a value is the beginning of another's (`dumps_append_inj`). -/
namespace Lib.Json

def isWord (ch : Char) : Bool := ch.isAlphanum || ch == '+' || ch == '-' || ch == '.'

/-- A number, a truth value or `null`, by its text. -/
structure Literal where
  text : List Char
  ne_nil : text ≠ []
  word : text.all isWord = true

inductive Value where
  | literal (l : Literal)
  | string (s : List Char)
  | array (items : List Value)
  | object (fields : List (List Char × Value))

/-! ### Characters -/

def hexDigit (n : Nat) : Char := "0123456789abcdef".toList.getD n '0'

/-- `{0:04x}` -/
def hex4 (n : Nat) : List Char :=
  [hexDigit (n / 4096 % 16), hexDigit (n / 256 % 16), hexDigit (n / 16 % 16), hexDigit (n % 16)]

/-- `\"`, `\\`, and the control characters that have a letter. -/
def shortEscape : Char → Option Char
  | '"' => some '"'
  | '\\' => some '\\'
  | '\n' => some 'n'
  | '\r' => some 'r'
  | '\t' => some 't'
  | '\x08' => some 'b'
  | '\x0c' => some 'f'
  | _ => none

def isPrintable (ch : Char) : Bool := 32 ≤ ch.toNat && ch.toNat ≤ 126

def escapeChar (ch : Char) : List Char :=
  match shortEscape ch with
  | some letter => ['\\', letter]
  | none =>
    if isPrintable ch then [ch]
    else if ch.toNat < 0x10000 then '\\' :: 'u' :: hex4 ch.toNat
    else
      let n := ch.toNat - 0x10000
      '\\' :: 'u' :: hex4 (0xd800 + n / 0x400) ++ '\\' :: 'u' :: hex4 (0xdc00 + n % 0x400)

/-! ### Values -/

def dumpString (s : List Char) : List Char := '"' :: s.flatMap escapeChar ++ ['"']

mutual
/-- The text of a value, with the separators `,` and `:`. -/
def dumps : Value → List Char
  | .literal l => l.text
  | .string s => dumpString s
  | .array items => '[' :: dumpItems items ++ [']']
  | .object fields => '{' :: dumpFields fields ++ ['}']

def dumpItems : List Value → List Char
  | [] => []
  | [v] => dumps v
  | v :: w :: rest => dumps v ++ ',' :: dumpItems (w :: rest)

def dumpFields : List (List Char × Value) → List Char
  | [] => []
  | [(key, v)] => dumpString key ++ ':' :: dumps v
  | (key, v) :: field :: rest => dumpString key ++ ':' :: dumps v ++ ',' :: dumpFields (field :: rest)
end

/-! ### Reading a character back -/

def hexValue (ch : Char) : Nat := "0123456789abcdef".toList.idxOf ch

theorem hexValue_hexDigit {n : Nat} (h : n < 16) : hexValue (hexDigit n) = n := by
  revert n
  decide

def value4 (a b c d : Char) : Nat := hexValue a * 4096 + hexValue b * 256 + hexValue c * 16 + hexValue d

theorem value4_hex4 {n : Nat} (h : n < 0x10000) :
    value4 (hexDigit (n / 4096 % 16)) (hexDigit (n / 256 % 16)) (hexDigit (n / 16 % 16)) (hexDigit (n % 16)) = n := by
  unfold value4
  rw [hexValue_hexDigit (Nat.mod_lt _ (by decide)), hexValue_hexDigit (Nat.mod_lt _ (by decide)),
    hexValue_hexDigit (Nat.mod_lt _ (by decide)), hexValue_hexDigit (Nat.mod_lt _ (by decide))]
  omega

def longEscape : Char → Char
  | 'n' => '\n'
  | 'r' => '\r'
  | 't' => '\t'
  | 'b' => '\x08'
  | 'f' => '\x0c'
  | ch => ch

/-- What follows `\u`. -/
def readUnit : List Char → Option (Char × List Char)
  | a :: b :: c :: d :: rest =>
    let high := value4 a b c d
    if 0xd800 ≤ high ∧ high < 0xdc00 then
      match rest with
      | _ :: _ :: a' :: b' :: c' :: d' :: rest' =>
        some (Char.ofNat (0x10000 + (high - 0xd800) * 0x400 + (value4 a' b' c' d' - 0xdc00)), rest')
      | _ => none
    else some (Char.ofNat high, rest)
  | _ => none

/-- One character of a string, and the rest. -/
def unescape : List Char → Option (Char × List Char)
  | [] => none
  | ch :: rest =>
    if ch = '\\' then
      match rest with
      | [] => none
      | letter :: rest => if letter = 'u' then readUnit rest else some (longEscape letter, rest)
    else some (ch, rest)

theorem longEscape_shortEscape {ch letter : Char} (h : shortEscape ch = some letter) :
    letter ≠ 'u' ∧ longEscape letter = ch := by
  unfold shortEscape at h
  split at h <;> cases h <;> exact ⟨by decide, rfl⟩

/-- No character is a surrogate. -/
theorem not_surrogate (ch : Char) : ch.toNat < 0xd800 ∨ 0xdfff < ch.toNat ∧ ch.toNat < 0x110000 := ch.valid

theorem unescape_escapeChar (ch : Char) (rest : List Char) : unescape (escapeChar ch ++ rest) = some (ch, rest) := by
  unfold escapeChar
  cases hshort : shortEscape ch with
  | some letter =>
    obtain ⟨hletter, hlong⟩ := longEscape_shortEscape hshort
    simp [unescape, hletter, hlong]
  | none =>
    have hslash : ch ≠ '\\' := by
      rintro rfl
      cases hshort
    have hvalid := not_surrogate ch
    dsimp only
    split
    · simp [unescape, hslash]
    · split
      · rename_i hbasic
        have hnot : ¬ (0xd800 ≤ ch.toNat ∧ ch.toNat < 0xdc00) := by omega
        simp only [hex4, List.cons_append, List.nil_append, unescape, if_true, readUnit, value4_hex4 hbasic, if_neg hnot,
          Char.ofNat_toNat]
      · rename_i hbasic
        have hhigh : 0xd800 + (ch.toNat - 0x10000) / 0x400 < 0x10000 := by omega
        have hlow : 0xdc00 + (ch.toNat - 0x10000) % 0x400 < 0x10000 := by omega
        have hpair : 0xd800 ≤ 0xd800 + (ch.toNat - 0x10000) / 0x400 ∧
            0xd800 + (ch.toNat - 0x10000) / 0x400 < 0xdc00 := by omega
        have hsum : 0x10000 + (0xd800 + (ch.toNat - 0x10000) / 0x400 - 0xd800) * 0x400 +
            (0xdc00 + (ch.toNat - 0x10000) % 0x400 - 0xdc00) = ch.toNat := by omega
        simp only [hex4, List.cons_append, List.nil_append, unescape, if_true, readUnit, value4_hex4 hhigh,
          value4_hex4 hlow, if_pos hpair, hsum, Char.ofNat_toNat]

theorem escapeChar_append_inj {ch ch' : Char} {rest rest' : List Char} (h : escapeChar ch ++ rest = escapeChar ch' ++ rest') :
    ch = ch' ∧ rest = rest' := by
  have hread := congrArg unescape h
  rw [unescape_escapeChar, unescape_escapeChar] at hread
  cases hread
  exact ⟨rfl, rfl⟩

/-- A quote is not a character's text. -/
theorem unescape_quote (rest : List Char) : unescape ('"' :: rest) = some ('"', rest) := rfl

theorem escapeChar_ne_quote (ch : Char) (rest rest' : List Char) : escapeChar ch ++ rest ≠ '"' :: rest' := by
  intro h
  have hread := congrArg unescape h
  rw [unescape_escapeChar, unescape_quote] at hread
  cases hread
  cases h

/-! ### Reading values back -/

theorem dumpString_append_inj {s s' rest rest' : List Char} (h : dumpString s ++ rest = dumpString s' ++ rest') :
    s = s' ∧ rest = rest' := by
  unfold dumpString at h
  simp only [List.cons_append, List.append_assoc, List.cons.injEq, true_and, List.nil_append] at h
  induction s generalizing s' with
  | nil =>
    cases s' with
    | nil => exact ⟨rfl, by simpa using h⟩
    | cons ch s' =>
      rw [List.flatMap_nil, List.nil_append, List.flatMap_cons, List.append_assoc] at h
      exact absurd h.symm (escapeChar_ne_quote ch _ _)
  | cons ch s ih =>
    cases s' with
    | nil =>
      rw [List.flatMap_nil, List.nil_append, List.flatMap_cons, List.append_assoc] at h
      exact absurd h (escapeChar_ne_quote ch _ _)
    | cons ch' s' =>
      rw [List.flatMap_cons, List.flatMap_cons, List.append_assoc, List.append_assoc] at h
      obtain ⟨rfl, htail⟩ := escapeChar_append_inj h
      obtain ⟨rfl, hrest⟩ := ih htail
      exact ⟨rfl, hrest⟩

/-- What may follow a value. -/
def Ends (rest : List Char) : Prop := rest.head?.all (!isWord ·) = true

theorem ends_nil : Ends [] := rfl

theorem ends_comma (rest : List Char) : Ends (',' :: rest) := rfl

theorem ends_bracket (rest : List Char) : Ends (']' :: rest) := rfl

theorem ends_brace (rest : List Char) : Ends ('}' :: rest) := rfl

theorem takeWhile_literal (l : Literal) {rest : List Char} (h : Ends rest) : (l.text ++ rest).takeWhile isWord = l.text := by
  rw [List.takeWhile_append_of_pos (List.all_eq_true.mp l.word)]
  cases rest with
  | nil => rw [List.takeWhile_nil, List.append_nil]
  | cons ch rest =>
    have hch : isWord ch = false := by simpa [Ends] using h
    rw [List.takeWhile_cons, hch]
    simp

theorem literal_append_inj {l l' : Literal} {rest rest' : List Char} (h : l.text ++ rest = l'.text ++ rest')
    (hends : Ends rest) (hends' : Ends rest') : l = l' ∧ rest = rest' := by
  have htext := congrArg (List.takeWhile isWord) h
  rw [takeWhile_literal l hends, takeWhile_literal l' hends'] at htext
  rw [htext] at h
  cases l
  cases l'
  cases htext
  exact ⟨rfl, List.append_cancel_left h⟩

/-- The first character of a value's text is none that ends or separates values. -/
theorem dumps_head (v : Value) : ∃ ch rest, dumps v = ch :: rest ∧ (isWord ch = true ∨ ch = '"' ∨ ch = '[' ∨ ch = '{') := by
  cases v with
  | literal l =>
    obtain ⟨ch, rest, htext⟩ := List.exists_cons_of_ne_nil l.ne_nil
    exact ⟨ch, rest, htext, .inl (List.all_eq_true.mp l.word ch (by rw [htext]; exact List.mem_cons_self ..))⟩
  | string s => exact ⟨_, _, by rw [dumps, dumpString, List.cons_append], .inr (.inl rfl)⟩
  | array items => exact ⟨_, _, by rw [dumps, List.cons_append], .inr (.inr (.inl rfl))⟩
  | object fields => exact ⟨_, _, by rw [dumps, List.cons_append], .inr (.inr (.inr rfl))⟩

/-- What stands where a value could: not a value. -/
theorem dumps_append_ne_cons {v : Value} {ch : Char} (hch : isWord ch = false ∧ ch ≠ '"' ∧ ch ≠ '[' ∧ ch ≠ '{')
    (rest rest' : List Char) : dumps v ++ rest ≠ ch :: rest' := by
  obtain ⟨first, more, heq, hfirst⟩ := dumps_head v
  rw [heq]
  intro h
  cases h
  obtain hword | rfl | rfl | rfl := hfirst
  · rw [hch.1] at hword
    cases hword
  · exact hch.2.1 rfl
  · exact hch.2.2.1 rfl
  · exact hch.2.2.2 rfl

/-- A literal is no other value. -/
theorem literal_append_ne {l : Literal} {ch : Char} (hch : isWord ch = false) (rest rest' : List Char) :
    l.text ++ rest ≠ ch :: rest' := by
  obtain ⟨first, more, htext⟩ := List.exists_cons_of_ne_nil l.ne_nil
  have hfirst : isWord first = true := List.all_eq_true.mp l.word first (by rw [htext]; exact List.mem_cons_self ..)
  rw [htext]
  intro h
  cases h
  rw [hch] at hfirst
  cases hfirst

mutual
/-- **No text of a value is the beginning of another's.** -/
theorem dumps_append_inj : ∀ (v w : Value) (rest rest' : List Char), Ends rest → Ends rest' →
    dumps v ++ rest = dumps w ++ rest' → v = w ∧ rest = rest'
  | .literal l, w, rest, rest', hends, hends', h => by
    cases w with
    | literal l' =>
      rw [dumps, dumps] at h
      obtain ⟨rfl, hrest⟩ := literal_append_inj h hends hends'
      exact ⟨rfl, hrest⟩
    | string s => exact absurd h (by rw [dumps, dumps, dumpString]; exact literal_append_ne rfl _ _)
    | array items => exact absurd h (by rw [dumps, dumps]; exact literal_append_ne rfl _ _)
    | object fields => exact absurd h (by rw [dumps, dumps]; exact literal_append_ne rfl _ _)
  | .string s, w, rest, rest', _, _, h => by
    cases w with
    | literal l => exact absurd h.symm (by rw [dumps, dumps, dumpString]; exact literal_append_ne rfl _ _)
    | string s' =>
      rw [dumps, dumps] at h
      obtain ⟨rfl, hrest⟩ := dumpString_append_inj h
      exact ⟨rfl, hrest⟩
    | array items => simp [dumps, dumpString] at h
    | object fields => simp [dumps, dumpString] at h
  | .array items, w, rest, rest', _, _, h => by
    cases w with
    | literal l => exact absurd h.symm (by rw [dumps, dumps]; exact literal_append_ne rfl _ _)
    | string s' => simp [dumps, dumpString] at h
    | array items' =>
      simp only [dumps, List.cons_append, List.append_assoc, List.nil_append, List.cons.injEq, true_and] at h
      obtain ⟨rfl, hrest⟩ := dumpItems_append_inj items items' rest rest' h
      exact ⟨rfl, hrest⟩
    | object fields => simp [dumps] at h
  | .object fields, w, rest, rest', _, _, h => by
    cases w with
    | literal l => exact absurd h.symm (by rw [dumps, dumps]; exact literal_append_ne rfl _ _)
    | string s' => simp [dumps, dumpString] at h
    | array items' => simp [dumps] at h
    | object fields' =>
      simp only [dumps, List.cons_append, List.append_assoc, List.nil_append, List.cons.injEq, true_and] at h
      obtain ⟨rfl, hrest⟩ := dumpFields_append_inj fields fields' rest rest' h
      exact ⟨rfl, hrest⟩

theorem dumpItems_append_inj : ∀ (items items' : List Value) (rest rest' : List Char),
    dumpItems items ++ ']' :: rest = dumpItems items' ++ ']' :: rest' → items = items' ∧ rest = rest'
  | [], items', rest, rest', h => by
    cases items' with
    | nil => exact ⟨rfl, by simpa [dumpItems] using h⟩
    | cons w items' =>
      cases items' with
      | nil => exact absurd h.symm (by rw [dumpItems, dumpItems]; exact dumps_append_ne_cons (by decide) _ _)
      | cons w' items' =>
        rw [dumpItems, dumpItems, List.append_assoc] at h
        exact absurd h.symm (dumps_append_ne_cons (by decide) _ _)
  | [v], items', rest, rest', h => by
    cases items' with
    | nil => exact absurd h (by rw [dumpItems, dumpItems]; exact dumps_append_ne_cons (by decide) _ _)
    | cons w items' =>
      cases items' with
      | nil =>
        rw [dumpItems, dumpItems] at h
        obtain ⟨rfl, hrest⟩ := dumps_append_inj v w _ _ (ends_bracket rest) (ends_bracket rest') h
        exact ⟨rfl, by simpa using hrest⟩
      | cons w' items' =>
        rw [dumpItems, dumpItems, List.append_assoc] at h
        obtain ⟨-, hrest⟩ := dumps_append_inj v w _ _ (ends_bracket rest) (ends_comma _) h
        cases hrest
  | v :: v' :: items, items', rest, rest', h => by
    cases items' with
    | nil =>
      rw [dumpItems, dumpItems, List.append_assoc] at h
      exact absurd h (dumps_append_ne_cons (by decide) _ _)
    | cons w items' =>
      cases items' with
      | nil =>
        rw [dumpItems, dumpItems, List.append_assoc] at h
        obtain ⟨-, hrest⟩ := dumps_append_inj v w _ _ (ends_comma _) (ends_bracket rest') h
        cases hrest
      | cons w' items' =>
        rw [dumpItems, dumpItems, List.append_assoc, List.append_assoc] at h
        obtain ⟨rfl, hrest⟩ := dumps_append_inj v w _ _ (ends_comma _) (ends_comma _) h
        simp only [List.cons.injEq, true_and] at hrest
        obtain ⟨heq, hend⟩ := dumpItems_append_inj (v' :: items) (w' :: items') _ _ hrest
        exact ⟨by rw [heq], hend⟩

theorem dumpFields_append_inj : ∀ (fields fields' : List (List Char × Value)) (rest rest' : List Char),
    dumpFields fields ++ '}' :: rest = dumpFields fields' ++ '}' :: rest' → fields = fields' ∧ rest = rest'
  | [], fields', rest, rest', h => by
    cases fields' with
    | nil => exact ⟨rfl, by simpa [dumpFields] using h⟩
    | cons field fields' =>
      obtain ⟨key, w⟩ := field
      cases fields' <;> simp [dumpFields, dumpString] at h
  | [(key, v)], fields', rest, rest', h => by
    cases fields' with
    | nil => simp [dumpFields, dumpString] at h
    | cons field fields' =>
      obtain ⟨key', w⟩ := field
      cases fields' with
      | nil =>
        simp only [dumpFields, List.append_assoc, List.cons_append] at h
        obtain ⟨rfl, hvalue⟩ := dumpString_append_inj h
        simp only [List.cons.injEq, true_and] at hvalue
        obtain ⟨rfl, hrest⟩ := dumps_append_inj v w _ _ (ends_brace rest) (ends_brace rest') hvalue
        exact ⟨rfl, by simpa using hrest⟩
      | cons field' fields' =>
        simp only [dumpFields, List.append_assoc, List.cons_append] at h
        obtain ⟨rfl, hvalue⟩ := dumpString_append_inj h
        simp only [List.cons.injEq, true_and] at hvalue
        obtain ⟨-, hrest⟩ := dumps_append_inj v w _ _ (ends_brace rest) (ends_comma _) hvalue
        cases hrest
  | (key, v) :: field₀ :: fields, fields', rest, rest', h => by
    cases fields' with
    | nil => simp [dumpFields, dumpString] at h
    | cons field fields' =>
      obtain ⟨key', w⟩ := field
      cases fields' with
      | nil =>
        simp only [dumpFields, List.append_assoc, List.cons_append] at h
        obtain ⟨rfl, hvalue⟩ := dumpString_append_inj h
        simp only [List.cons.injEq, true_and] at hvalue
        obtain ⟨-, hrest⟩ := dumps_append_inj v w _ _ (ends_comma _) (ends_brace rest') hvalue
        cases hrest
      | cons field' fields' =>
        simp only [dumpFields, List.append_assoc, List.cons_append] at h
        obtain ⟨rfl, hvalue⟩ := dumpString_append_inj h
        simp only [List.cons.injEq, true_and] at hvalue
        obtain ⟨rfl, hrest⟩ := dumps_append_inj v w _ _ (ends_comma _) (ends_comma _) hvalue
        simp only [List.cons.injEq, true_and] at hrest
        obtain ⟨heq, hend⟩ := dumpFields_append_inj (field₀ :: fields) (field' :: fields') _ _ hrest
        exact ⟨by rw [heq], hend⟩
end

theorem dumps_inj {v w : Value} (h : dumps v = dumps w) : v = w :=
  (dumps_append_inj v w [] [] ends_nil ends_nil (by rw [h])).1

/-! ### How long a text is -/

theorem length_escapeChar_le (ch : Char) : (escapeChar ch).length ≤ 12 := by
  unfold escapeChar
  split
  · simp
  · split
    · simp
    · split
      · simp [hex4]
      · simp [hex4]

theorem length_dumpString_le (s : List Char) : (dumpString s).length ≤ 12 * s.length + 2 := by
  have hbody : (s.flatMap escapeChar).length ≤ 12 * s.length := by
    induction s with
    | nil => exact Nat.le_refl _
    | cons ch s ih =>
      have hch := length_escapeChar_le ch
      rw [List.flatMap_cons, List.length_append, List.length_cons]
      omega
  rw [dumpString, List.length_append, List.length_cons, List.length_singleton]
  omega

mutual
/-- A bound of the length of the text. -/
def bound : Value → Nat
  | .literal l => l.text.length
  | .string s => 12 * s.length + 2
  | .array items => boundItems items + 2
  | .object fields => boundFields fields + 2

def boundItems : List Value → Nat
  | [] => 0
  | v :: rest => bound v + 1 + boundItems rest

def boundFields : List (List Char × Value) → Nat
  | [] => 0
  | (key, v) :: rest => 12 * key.length + 4 + bound v + boundFields rest
end

mutual
theorem length_dumps_le : ∀ v : Value, (dumps v).length ≤ bound v
  | .literal l => Nat.le_refl _
  | .string s => length_dumpString_le s
  | .array items => by
    have hitems := length_dumpItems_le items
    simp only [dumps, bound, List.length_cons, List.length_append, List.length_nil]
    omega
  | .object fields => by
    have hfields := length_dumpFields_le fields
    simp only [dumps, bound, List.length_cons, List.length_append, List.length_nil]
    omega

theorem length_dumpItems_le : ∀ items : List Value, (dumpItems items).length ≤ boundItems items
  | [] => Nat.le_refl _
  | [v] => by
    have hv := length_dumps_le v
    simp only [dumpItems, boundItems]
    omega
  | v :: w :: rest => by
    have hv := length_dumps_le v
    have hrest := length_dumpItems_le (w :: rest)
    rw [dumpItems, boundItems, List.length_append, List.length_cons]
    omega

theorem length_dumpFields_le : ∀ fields : List (List Char × Value), (dumpFields fields).length ≤ boundFields fields
  | [] => Nat.le_refl _
  | [(key, v)] => by
    have hkey := length_dumpString_le key
    have hv := length_dumps_le v
    simp only [dumpFields, boundFields, List.length_append, List.length_cons]
    omega
  | (key, v) :: field :: rest => by
    have hkey := length_dumpString_le key
    have hv := length_dumps_le v
    have hrest := length_dumpFields_le (field :: rest)
    rw [dumpFields, boundFields, List.length_append, List.length_append, List.length_cons, List.length_cons]
    omega
end

end Lib.Json
