import Fetech.Lib.Except
import Mathlib.Tactic.Ring

/-! Bytes at positions, and the integers they stand for.

`byteAt` and `slice` read inside the bytes only and raise outside of them, so that a reader made of
them which never raises that has stayed inside. -/
namespace Lib.Bytes

inductive Order where
  | big
  | little
  deriving DecidableEq

/-- `int.from_bytes(bytes, order)` -/
def toNat (order : Order) (bytes : List UInt8) : Nat :=
  match order with
  | .big => bytes.foldl (fun n b => n * 256 + b.toNat) 0
  | .little => bytes.foldr (fun b n => n * 256 + b.toNat) 0

/-- `int.from_bytes(bytes, order, signed=True)` -/
def toInt (order : Order) (bytes : List UInt8) : Int :=
  if 2 * toNat order bytes < 256 ^ bytes.length then (toNat order bytes : Int)
  else (toNat order bytes : Int) - (256 : Int) ^ bytes.length

/-! ### Reading -/

section
variable {ε : Type} (err : ε) (bytes : List UInt8)

/-- The bytes between two positions. -/
def piece (lo hi : Nat) : List UInt8 := (bytes.drop lo).take (hi - lo)

/-- `bytes[i]`, inside of the bytes. -/
def byteAt (i : Nat) : Except ε UInt8 := Except.ofOption err bytes[i]?

/-- `bytes[lo:hi]`, inside of the bytes. -/
def slice (lo hi : Nat) : Except ε (List UInt8) := if hi ≤ bytes.length then .ok (piece bytes lo hi) else .error err

variable {err bytes} {i lo hi : Nat}

theorem length_piece (lo : Nat) (h : hi ≤ bytes.length) : (piece bytes lo hi).length = hi - lo := by
  rw [piece, List.length_take, List.length_drop]
  omega

theorem slice_of_le (h : hi ≤ bytes.length) : slice err bytes lo hi = .ok (piece bytes lo hi) := if_pos h

theorem byteAt_of_lt (h : i < bytes.length) : byteAt err bytes i = .ok bytes[i] := by
  rw [byteAt, List.getElem?_eq_getElem h]
  rfl

/-- A piece of what is left at a position. -/
theorem piece_add (bytes : List UInt8) (start lo hi : Nat) : piece bytes (start + lo) (start + hi) = piece (bytes.drop start) lo hi := by
  rw [piece, piece, List.drop_drop, Nat.add_sub_add_left]

end
end Lib.Bytes

namespace Lib.Except
variable {ε : Type} {err : ε} {E : ε → Prop} {bytes : List UInt8} {i lo hi : Nat}

@[simp] theorem meets_byteAt {Q : UInt8 → Prop} :
    Meets (Bytes.byteAt err bytes i) Q E ↔ (∀ b, bytes[i]? = some b → Q b) ∧ (bytes.length ≤ i → E err) := by
  unfold Bytes.byteAt
  rw [meets_ofOption, List.getElem?_eq_none_iff]

@[simp] theorem meets_slice {Q : List UInt8 → Prop} : Meets (Bytes.slice err bytes lo hi) Q E ↔
    (hi ≤ bytes.length → Q (Bytes.piece bytes lo hi)) ∧ (bytes.length < hi → E err) := by
  unfold Bytes.slice
  rw [← Nat.not_le]
  split
  · simp [*]
  · simp [*]

end Lib.Except
