import Fetech.Lib.JsonReader
import Fetech.Lib.Except

/-! What `json.loads` raises.

`JsonReader` says which values are read, not why others are not. The same scanner is written here
with its ways to give up: text that is malformed, which a `JSONDecodeError` reports, an integer with
more digits than `int` takes, which is another `ValueError`, and lists and objects too deep for the
interpreter's limit on recursion, which comes of a text as soon as it is reached, whatever follows.
Both read the same values (`toOption_loadsOrFault`). -/
namespace Lib.JsonText
open Lib.Except

inductive Fault where
  | malformed
  | digits
  | recursion
  deriving DecidableEq, Repr

variable {α : Type}

/-- One or more things between commas, up to what closes them. -/
def readManyOrFault (one : Text → Except Fault (α × Text)) (close : CodePoint) :
    Nat → Text → Except Fault (List α × Text)
  | 0, _ => .error .malformed
  | n + 1, s => do
    let (a, s) ← one s
    match skipSpace s with
    | [] => .error .malformed
    | c :: s =>
      if c = close then return ([a], s)
      else if c = comma then do
        let (rest, s) ← readManyOrFault one close n (skipSpace s)
        return (a :: rest, s)
      else .error .malformed

/-- What stands in brackets or braces, from after the first. -/
def readAllOrFault (one : Text → Except Fault (α × Text)) (close : CodePoint) (s : Text) :
    Except Fault (List α × Text) :=
  match skipSpace s with
  | [] => .error .malformed
  | c :: s => if c = close then .ok ([], s) else readManyOrFault one close (s.length + 1) (c :: s)

/-- A key and its value. -/
def readFieldOrFault (value : Text → Except Fault (α × Text)) : Text → Except Fault ((Text × α) × Text)
  | [] => .error .malformed
  | c :: s =>
    if c ≠ quote then .error .malformed
    else do
      let (key, s) ← ofOption .malformed (readString s)
      match skipSpace s with
      | [] => .error .malformed
      | c :: s =>
        if c ≠ colon then .error .malformed
        else do
          let (v, s) ← value (skipSpace s)
          return ((key, v), s)

variable {φ : Type} (f : Floats φ) (hooks : Hooks φ)

/-- What a scalar raises that is not read. -/
def scalarFault (s : Text) : Fault :=
  match readWhole (if s.head? = some minus then s.tail else s) with
  | none => .malformed
  | some (whole, s) =>
    let (fraction, s) := readFraction s
    if fraction = [] ∧ (readExponent s).1 = [] ∧ maximumDigits < whole.length then .digits else .malformed

/-- `scan_once`, with what it raises. How deep it may call itself is a matter of the text as well: the
interpreter counts the call of a hook where an object ends. -/
def readValueOrFault : Nat → Text → Except Fault (JsonValue φ × Text)
  | _, [] => .error .malformed
  | nesting, c :: s =>
    if c = quote then ofOption .malformed ((readString s).map fun (t, rest) => (.string t, rest))
    else if c = openBracket then
      match nesting with
      | 0 => .error .recursion
      | nesting + 1 => do
        let (items, rest) ← readAllOrFault (readValueOrFault nesting) closeBracket s
        return (.array items, rest)
    else if c = openBrace then
      match nesting with
      | 0 => .error .recursion
      | nesting + 1 => do
        let (fields, rest) ← readAllOrFault (readFieldOrFault (readValueOrFault nesting)) closeBrace s
        let fields ← ofOption .malformed (hooks.object fields)
        return (.object fields, rest)
    else ofOption (scalarFault (c :: s)) (readScalar f hooks (c :: s))

/-- `json.loads`, with what it raises. -/
def loadsOrFault (nesting : Nat) (s : Text) : Except Fault (JsonValue φ) := do
  let (v, rest) ← readValueOrFault f hooks nesting (skipSpace s)
  require (skipSpace rest).isEmpty .malformed
  return v

/-! ### The values are the same -/

section
variable {one : Text → Except Fault (α × Text)} {close : CodePoint}

theorem toOption_readManyOrFault (n : Nat) (s : Text) :
    (readManyOrFault one close n s).toOption = readMany (fun s => (one s).toOption) close n s := by
  induction n generalizing s with
  | zero => rfl
  | succ n ih =>
    rw [readManyOrFault, readMany, toOption_bind]
    apply congrArg
    funext r
    obtain ⟨a, s'⟩ := r
    dsimp only
    cases skipSpace s' with
    | nil => rfl
    | cons c rest =>
      by_cases hclose : c = close
      · simp only [if_pos hclose]
        rfl
      · by_cases hcomma : c = comma
        · simp only [if_neg hclose, if_pos hcomma, toOption_bind, ih]
          rfl
        · simp only [if_neg hclose, if_neg hcomma]
          rfl

theorem toOption_readAllOrFault (s : Text) :
    (readAllOrFault one close s).toOption = readAll (fun s => (one s).toOption) close s := by
  unfold readAllOrFault readAll
  cases skipSpace s with
  | nil => rfl
  | cons c rest =>
    by_cases hclose : c = close
    · simp only [if_pos hclose]
      rfl
    · simp only [if_neg hclose]
      exact toOption_readManyOrFault _ _

theorem toOption_readFieldOrFault {value : Text → Except Fault (α × Text)} (s : Text) :
    (readFieldOrFault value s).toOption = readField (fun s => (value s).toOption) s := by
  cases s with
  | nil => rfl
  | cons c s =>
    by_cases hquote : c = quote
    · simp only [readFieldOrFault, readField, if_neg (not_not.mpr hquote), toOption_bind, toOption_ofOption]
      apply congrArg
      funext r
      obtain ⟨key, s'⟩ := r
      dsimp only
      cases skipSpace s' with
      | nil => rfl
      | cons c rest =>
        by_cases hcolon : c = colon
        · simp only [if_neg (not_not.mpr hcolon), toOption_bind]
          rfl
        · simp only [if_pos hcolon]
          rfl
    · simp only [readFieldOrFault, readField, if_pos hquote]
      rfl

end

theorem toOption_readValueOrFault (nesting : Nat) (s : Text) :
    (readValueOrFault f hooks nesting s).toOption = readValue f hooks nesting s := by
  induction nesting generalizing s with
  | zero =>
    unfold readValueOrFault readValue
    cases s with
    | nil => rfl
    | cons c s =>
      dsimp only
      split_ifs
      · exact toOption_ofOption
      · rfl
      · rfl
      · exact toOption_ofOption
  | succ nesting ih =>
    have hone : (fun s => (readValueOrFault f hooks nesting s).toOption) = readValue f hooks nesting := funext ih
    have hfield : (fun s => (readFieldOrFault (readValueOrFault f hooks nesting) s).toOption) =
        readField (readValue f hooks nesting) := by
      funext s
      rw [toOption_readFieldOrFault, hone]
    unfold readValueOrFault readValue
    cases s with
    | nil => rfl
    | cons c s =>
      dsimp only
      split_ifs
      · exact toOption_ofOption
      · rw [toOption_bind, toOption_readAllOrFault, hone, Option.map_eq_bind]
        rfl
      · rw [toOption_bind, toOption_readAllOrFault, hfield]
        apply congrArg
        funext result
        obtain ⟨fields, rest⟩ := result
        rw [toOption_bind, toOption_ofOption]
        rfl
      · exact toOption_ofOption

/-- **The scanner reads the same values whether or not it says why it reads no others.** -/
theorem toOption_loadsOrFault (nesting : Nat) (s : Text) :
    (loadsOrFault f hooks nesting s).toOption = loads f hooks nesting s := by
  rw [loadsOrFault, loads, toOption_bind, toOption_readValueOrFault]
  apply congrArg
  funext result
  obtain ⟨v, rest⟩ := result
  cases hrest : (skipSpace rest).isEmpty with
  | false => simp [hrest, require, guard, bind, Except.bind, Except.toOption]
  | true => simp [hrest, require, guard, bind, Except.bind, Except.toOption, pure, Except.pure]

end Lib.JsonText
