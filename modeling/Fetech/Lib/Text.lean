import Mathlib.Algebra.GroupWithZero.Nat
import Mathlib.Algebra.Order.BigOperators.Group.List
import Mathlib.Algebra.Order.Group.Nat
import Mathlib.Tactic.Common

/-! Text as Python has it: a sequence of code points, lone surrogates among them.

A surrogate has no UTF-8, so a text that holds one cannot be encoded (`utf8Length?`). -/
namespace Lib

abbrev CodePoint := Fin 0x110000

abbrev Text := List CodePoint

instance codePoints_ne_zero : NeZero 0x110000 := ⟨by decide⟩

instance text_lawfulBEq : LawfulBEq Text := inferInstance

namespace CodePoint

def ofChar (ch : Char) : CodePoint := Fin.ofNat 0x110000 ch.toNat

def isSurrogate (c : CodePoint) : Bool := 0xd800 ≤ c.val && c.val < 0xe000

/-- Its bytes in UTF-8. -/
def utf8Size (c : CodePoint) : Nat :=
  if c.val < 0x80 then 1 else if c.val < 0x800 then 2 else if c.val < 0x10000 then 3 else 4

theorem val_ofChar (ch : Char) : (ofChar ch).val = ch.toNat := by
  have hlt : ch.toNat < 0x110000 := by
    obtain hlow | hhigh := ch.valid
    · exact Nat.lt_trans hlow (by decide)
    · exact hhigh.2
  exact Nat.mod_eq_of_lt hlt

theorem ofChar_inj : Function.Injective ofChar := by
  intro a b h
  have hnat : a.toNat = b.toNat := by rw [← val_ofChar, ← val_ofChar, h]
  exact Char.toNat_inj.mp hnat

theorem utf8Size_pos (c : CodePoint) : 1 ≤ c.utf8Size := by
  unfold utf8Size
  repeat' split
  all_goals omega

end CodePoint

namespace Text

/-- The text of a literal. -/
def ofString (s : String) : Text := s.toList.map CodePoint.ofChar

theorem ofString_inj : Function.Injective ofString := by
  intro s t h
  exact String.toList_inj.mp (CodePoint.ofChar_inj.list_map h)

def encodable (s : Text) : Bool := s.all (!·.isSurrogate)

theorem encodable_ofString (s : String) : encodable (ofString s) = true := by
  refine List.all_eq_true.mpr fun c hc => ?_
  obtain ⟨ch, -, rfl⟩ := List.mem_map.mp hc
  have hvalid : ch.toNat < 0xd800 ∨ 0xdfff < ch.toNat ∧ ch.toNat < 0x110000 := ch.valid
  rw [CodePoint.isSurrogate, CodePoint.val_ofChar, Bool.not_eq_true', Bool.and_eq_false_iff, decide_eq_false_iff_not,
    decide_eq_false_iff_not]
  omega

def utf8Length (s : Text) : Nat := (s.map CodePoint.utf8Size).sum

/-- `len(s.encode("utf-8"))`; `none` is the `UnicodeEncodeError`. -/
def utf8Length? (s : Text) : Option Nat := if encodable s then some (utf8Length s) else none

def startsWith (start s : Text) : Bool := start.isPrefixOf s

/-- A part of a text can be encoded if the whole can, and is no longer. -/
theorem utf8Length?_sublist {s s' : Text} (h : List.Sublist s' s) {n : Nat} (hn : utf8Length? s = some n) :
    ∃ m ≤ n, utf8Length? s' = some m := by
  unfold utf8Length? at hn ⊢
  split at hn
  · rename_i hs
    cases hn
    have hs' : encodable s' = true := by
      rw [encodable, List.all_eq_true] at hs ⊢
      exact fun c hc => hs c (h.subset hc)
    exact ⟨utf8Length s', (h.map _).sum_le_sum fun _ _ => Nat.zero_le _, by rw [if_pos hs']⟩
  · cases hn

end Text
end Lib
