import Fetech.Lib.JsonText

/-! Structured API payloads (`fetech/adapters/api.py`): the check of a decoded value and the cut of
its lists.

A value is what `json.loads` and `yaml.load` give. The keys of a mapping are those of a `dict`, so
that filling a fresh `dict` with them in their order is a `map`. -/
namespace Fetech.Api
open Lib Lib.JsonText

/-- A key of a decoded mapping; only YAML has keys that are not strings. -/
inductive Key where
  | string (s : Text)
  | other
  deriving DecidableEq

/-- A decoded value. `other` is one that JSON does not have (a date, a set, bytes). -/
inductive Payload (φ : Type) where
  | null
  | bool (b : Bool)
  | int (n : Int)
  | float (x : φ)
  | string (s : Text)
  | list (items : List (Payload φ))
  | mapping (fields : List (Key × Payload φ))
  | other

namespace Payload
variable {φ : Type}

/-- What holds of a list's items and of a mapping's values holds of it. -/
@[elab_as_elim]
theorem induction {P : Payload φ → Prop} (null : P .null) (bool : ∀ b, P (.bool b)) (int : ∀ n, P (.int n))
    (float : ∀ x, P (.float x)) (string : ∀ s, P (.string s)) (list : ∀ items, (∀ v ∈ items, P v) → P (.list items))
    (mapping : ∀ fields, (∀ field ∈ fields, P field.2) → P (.mapping fields)) (other : P .other) : ∀ v, P v
  | .null => null
  | .bool b => bool b
  | .int n => int n
  | .float x => float x
  | .string s => string s
  | .list items => list items fun v _ => induction null bool int float string list mapping other v
  | .mapping fields => mapping fields fun field _ => induction null bool int float string list mapping other field.2
  | .other => other
decreasing_by
  · simp_wf
    have := List.sizeOf_lt_of_mem ‹v ∈ items›
    omega
  · rename_i hmem
    have hfields := List.sizeOf_lt_of_mem hmem
    have hfield : sizeOf field.2 < sizeOf field := by
      cases field
      simp
    simp_wf
    omega

end Payload

variable {φ : Type} (f : Floats φ)

/-! ### The check -/

/-- `_validate_json_structure` with its stack, the value on top first, and the nodes it has taken
from it. -/
def validateStack (maximumNodes maximumDepth : Nat) (nodes : Nat) : List (Payload φ × Nat) → Except String Unit
  | [] => .ok ()
  | (value, depth) :: stack =>
    if _ : maximumNodes < nodes + 1 then .error "structured payload exceeds the node limit"
    else if maximumDepth < depth then .error "structured payload exceeds the nesting limit"
    else match value with
      | .float x =>
        if f.isFinite x then validateStack maximumNodes maximumDepth (nodes + 1) stack
        else .error "non-finite numbers are forbidden"
      | .list items =>
        validateStack maximumNodes maximumDepth (nodes + 1) ((items.map fun item => (item, depth + 1)).reverse ++ stack)
      | .mapping fields =>
        if fields.all (·.1 != .other) then
          validateStack maximumNodes maximumDepth (nodes + 1)
            ((fields.map fun field => (field.2, depth + 1)).reverse ++ stack)
        else .error "structured object keys must be strings"
      | .other => .error "structured payload contains a non-JSON value"
      | _ => validateStack maximumNodes maximumDepth (nodes + 1) stack
termination_by maximumNodes - nodes
decreasing_by all_goals omega

/-- `_validate_json_structure`. -/
def validateJsonStructure (maximumNodes maximumDepth : Nat) (data : Payload φ) : Except String Unit :=
  validateStack f maximumNodes maximumDepth 0 [(data, 1)]

/-! ### The cut -/

mutual
/-- `_truncate_json_lists`: the value and how many elements were cut. -/
def truncateJsonLists (maximumRecords : Nat) : Payload φ → Payload φ × Nat
  | .list items =>
    let kept := truncateItems maximumRecords maximumRecords items
    (.list kept.1, items.length - maximumRecords + kept.2)
  | .mapping fields =>
    let kept := truncateFields maximumRecords fields
    (.mapping kept.1, kept.2)
  | data => (data, 0)

/-- The items of `data[:room]`. -/
def truncateItems (maximumRecords : Nat) : Nat → List (Payload φ) → List (Payload φ) × Nat
  | room + 1, item :: rest =>
    let bounded := truncateJsonLists maximumRecords item
    let others := truncateItems maximumRecords room rest
    (bounded.1 :: others.1, bounded.2 + others.2)
  | _, _ => ([], 0)

def truncateFields (maximumRecords : Nat) : List (Key × Payload φ) → List (Key × Payload φ) × Nat
  | [] => ([], 0)
  | (key, value) :: rest =>
    let bounded := truncateJsonLists maximumRecords value
    let others := truncateFields maximumRecords rest
    ((key, bounded.1) :: others.1, bounded.2 + others.2)
end

end Fetech.Api
