import Mathlib.Data.Option.Basic
import Fetech.Lib.Text

/-! Base64 as `b64encode` writes it and `b64decode` reads it with `validate=True`.

Reading takes whole groups of four, padded only at the end; the bits that the padding stands for
are not looked at. What was written is read back (`decode_encode`). -/
namespace Lib.Base64

def alphabet : Text := Text.ofString "ABCDEFGHIJKLMNOPQRSTUVWXYZabcdefghijklmnopqrstuvwxyz0123456789+/"

def pad : CodePoint := 0x3d

def digit (n : Nat) : CodePoint := alphabet.getD n pad

/-- What a character stands for; `none` is one outside the alphabet. -/
def sextet (c : CodePoint) : Option Nat := if alphabet.idxOf c < 64 then some (alphabet.idxOf c) else none

def byte (n : Nat) : UInt8 := UInt8.ofNat n

def encode : List UInt8 → Text
  | [] => []
  | [a] => [digit (a.toNat / 4), digit (a.toNat % 4 * 16), pad, pad]
  | [a, b] => [digit (a.toNat / 4), digit (a.toNat % 4 * 16 + b.toNat / 16), digit (b.toNat % 16 * 4), pad]
  | a :: b :: c :: rest =>
    digit (a.toNat / 4) :: digit (a.toNat % 4 * 16 + b.toNat / 16) :: digit (b.toNat % 16 * 4 + c.toNat / 64) ::
      digit (c.toNat % 64) :: encode rest

/-- `none` is the `binascii.Error`, or the `ValueError` of a text that is not in ASCII. -/
def decode : Text → Option (List UInt8)
  | [] => some []
  | w :: x :: y :: z :: rest => do
    let w ← sextet w
    let x ← sextet x
    let first := byte (w * 4 + x / 16)
    if z = pad then
      guard rest.isEmpty
      if y = pad then return [first]
      let y ← sextet y
      return [first, byte (x % 16 * 16 + y / 4)]
    else
      let y ← sextet y
      let z ← sextet z
      let others ← decode rest
      return first :: byte (x % 16 * 16 + y / 4) :: byte (y % 4 * 64 + z) :: others
  | _ => none

theorem digit_facts : ∀ n < 64, sextet (digit n) = some n ∧ digit n ≠ pad := by decide +kernel

theorem sextet_digit {n : Nat} (h : n < 64) : sextet (digit n) = some n := (digit_facts n h).1

theorem digit_ne_pad {n : Nat} (h : n < 64) : digit n ≠ pad := (digit_facts n h).2

theorem byte_eq {a : UInt8} {n : Nat} (h : n = a.toNat) : byte n = a := by
  rw [h, byte]
  exact UInt8.ofNat_toNat

/-- **What was written is read back.** -/
theorem decode_encode (bytes : List UInt8) : decode (encode bytes) = some bytes := by
  induction bytes using encode.induct with
  | case1 => rfl
  | case2 a =>
    have ha := a.toNat_lt
    rw [encode, decode, sextet_digit (by omega), sextet_digit (by omega)]
    have hfirst : byte (a.toNat / 4 * 4 + a.toNat % 4 * 16 / 16) = a := byte_eq (by omega)
    simp only [Option.bind_eq_bind, Option.bind_some, List.isEmpty_nil, guard, if_true, hfirst]
    rfl
  | case3 a b =>
    have ha := a.toNat_lt
    have hb := b.toNat_lt
    rw [encode, decode, sextet_digit (by omega), sextet_digit (by omega), sextet_digit (by omega)]
    have hfirst : byte (a.toNat / 4 * 4 + (a.toNat % 4 * 16 + b.toNat / 16) / 16) = a := byte_eq (by omega)
    have hsecond : byte ((a.toNat % 4 * 16 + b.toNat / 16) % 16 * 16 + b.toNat % 16 * 4 / 4) = b :=
      byte_eq (by omega)
    have hpad : digit (b.toNat % 16 * 4) ≠ pad := digit_ne_pad (by omega)
    simp only [Option.bind_eq_bind, Option.bind_some, List.isEmpty_nil, guard, if_true, if_neg hpad, hfirst, hsecond]
    rfl
  | case4 a b c rest ih =>
    have ha := a.toNat_lt
    have hb := b.toNat_lt
    have hc := c.toNat_lt
    rw [encode, decode, sextet_digit (by omega), sextet_digit (by omega), sextet_digit (by omega),
      sextet_digit (by omega), ih]
    have hfirst : byte (a.toNat / 4 * 4 + (a.toNat % 4 * 16 + b.toNat / 16) / 16) = a := byte_eq (by omega)
    have hsecond : byte
        ((a.toNat % 4 * 16 + b.toNat / 16) % 16 * 16 + (b.toNat % 16 * 4 + c.toNat / 64) / 4) = b := byte_eq (by omega)
    have hthird : byte ((b.toNat % 16 * 4 + c.toNat / 64) % 4 * 64 + c.toNat % 64) = c := byte_eq (by omega)
    have hpad : digit (c.toNat % 64) ≠ pad := digit_ne_pad (by omega)
    simp only [Option.bind_eq_bind, Option.bind_some, if_neg hpad, hfirst, hsecond, hthird]
    rfl

/-- Four characters for each group of three bytes. -/
theorem length_encode (bytes : List UInt8) : (encode bytes).length = 4 * ((bytes.length + 2) / 3) := by
  induction bytes using encode.induct with
  | case1 => rfl
  | case2 a => simp [encode]
  | case3 a b => simp [encode]
  | case4 a b c rest ih =>
    simp only [encode, List.length_cons, ih]
    omega

theorem digit_plain (n : Nat) : (digit n).isSurrogate = false := by
  have hall : alphabet.all (!·.isSurrogate) = true := by decide +kernel
  rw [digit, List.getD_eq_getElem?_getD]
  cases h : alphabet[n]? with
  | none => rfl
  | some c => simpa using List.all_eq_true.mp hall c (List.mem_of_getElem? h)

theorem encodable_encode (bytes : List UInt8) : Text.encodable (encode bytes) = true := by
  have hpad : pad.isSurrogate = false := rfl
  rw [Text.encodable]
  induction bytes using encode.induct with
  | case1 => rfl
  | case2 a => simp [encode, digit_plain, hpad]
  | case3 a b => simp [encode, digit_plain, hpad]
  | case4 a b c rest ih => simp only [encode, List.all_cons, digit_plain, Bool.not_false, Bool.true_and, ih]

end Lib.Base64
