import Fetech.Lib.Text

/-! Values as `json.loads` gives them.

Floating-point numbers are what the platform has for them; an object is its fields in the order
in which their keys came. -/
namespace Lib

inductive JsonValue (φ : Type) where
  | null
  | bool (b : Bool)
  | int (n : Int)
  | float (x : φ)
  | string (s : Text)
  | array (items : List (JsonValue φ))
  | object (fields : List (Text × JsonValue φ))

namespace JsonValue
variable {φ : Type}

/-- `d.get(key)`. -/
def get? (fields : List (Text × JsonValue φ)) (key : String) : Option (JsonValue φ) :=
  (fields.find? (·.1 = Text.ofString key)).map Prod.snd

/-- `set(d) == {…}`. -/
def hasKeys (fields : List (Text × JsonValue φ)) (keys : List String) : Bool :=
  fields.all (fun field => (keys.map Text.ofString).contains field.1) && keys.all fun key => (get? fields key).isSome

/-- A field is found by its key, if no other has it. -/
theorem find?_of_mem {fields : List (Text × JsonValue φ)} (h : (fields.map Prod.fst).Nodup) {field : Text × JsonValue φ}
    (hfield : field ∈ fields) : fields.find? (fun other => other.1 = field.1) = some field := by
  induction fields with
  | nil => cases hfield
  | cons first rest ih =>
    rw [List.map_cons, List.nodup_cons] at h
    obtain rfl | hrest := List.mem_cons.mp hfield
    · simp
    · have hne : ¬ first.1 = field.1 := fun heq => h.1 (heq ▸ List.mem_map_of_mem hrest)
      simp [hne, ih h.2 hrest]

theorem get?_eq_some_iff {fields : List (Text × JsonValue φ)} (h : (fields.map Prod.fst).Nodup) {key : String}
    {v : JsonValue φ} : get? fields key = some v ↔ (Text.ofString key, v) ∈ fields := by
  rw [get?, Option.map_eq_some_iff]
  constructor
  · intro ⟨field, hfield, hv⟩
    have hkey := List.find?_some hfield
    rw [decide_eq_true_eq] at hkey
    rw [← hkey, ← hv]
    exact List.mem_of_find?_eq_some hfield
  · intro hmem
    exact ⟨_, find?_of_mem h hmem, rfl⟩

/-- What holds of a list's items and of an object's values holds of it. -/
@[elab_as_elim]
theorem induction {P : JsonValue φ → Prop} (null : P .null) (bool : ∀ b, P (.bool b)) (int : ∀ n, P (.int n))
    (float : ∀ x, P (.float x)) (string : ∀ s, P (.string s)) (array : ∀ items, (∀ v ∈ items, P v) → P (.array items))
    (object : ∀ fields, (∀ field ∈ fields, P field.2) → P (.object fields)) : ∀ v, P v
  | .null => null
  | .bool b => bool b
  | .int n => int n
  | .float x => float x
  | .string s => string s
  | .array items => array items fun v _ => induction null bool int float string array object v
  | .object fields => object fields fun field _ => induction null bool int float string array object field.2
decreasing_by
  · simp_wf
    have := List.sizeOf_lt_of_mem ‹v ∈ items›
    omega
  · rename_i hmem
    have hfields := List.sizeOf_lt_of_mem hmem
    have hfield : sizeOf field.2 < sizeOf field := by
      cases field
      simp
    simp_wf
    omega

/-! ### Checks at every value inside -/

variable (p : JsonValue φ → Bool)

mutual
/-- Whether a value and all that stands in it pass a check. -/
def every : JsonValue φ → Bool
  | .array items => p (.array items) && everyItem items
  | .object fields => p (.object fields) && everyField fields
  | v => p v

def everyItem : List (JsonValue φ) → Bool
  | [] => true
  | v :: rest => every v && everyItem rest

def everyField : List (Text × JsonValue φ) → Bool
  | [] => true
  | (_, v) :: rest => every v && everyField rest
end

theorem every_array {items : List (JsonValue φ)} :
    every p (.array items) = true ↔ p (.array items) = true ∧ ∀ v ∈ items, every p v = true := by
  have hitems : everyItem p items = true ↔ ∀ v ∈ items, every p v = true := by
    induction items with
    | nil => simp [everyItem]
    | cons v rest ih => rw [everyItem, Bool.and_eq_true, ih, List.forall_mem_cons]
  rw [every, Bool.and_eq_true, hitems]

theorem every_object {fields : List (Text × JsonValue φ)} :
    every p (.object fields) = true ↔ p (.object fields) = true ∧ ∀ field ∈ fields, every p field.2 = true := by
  have hfields : everyField p fields = true ↔ ∀ field ∈ fields, every p field.2 = true := by
    induction fields with
    | nil => simp [everyField]
    | cons field rest ih => rw [everyField, Bool.and_eq_true, ih, List.forall_mem_cons]
  rw [every, Bool.and_eq_true, hfields]

/-- No object has a key twice, as a `dict` has not. -/
def uniqueHere : JsonValue φ → Bool
  | .object fields => decide (fields.map Prod.fst).Nodup
  | _ => true

def HasUniqueKeys (v : JsonValue φ) : Prop := every uniqueHere v = true

/-- Whether lists and objects stand in one another no deeper than this. -/
def fitsIn : Nat → JsonValue φ → Bool
  | 0, .array _ => false
  | 0, .object _ => false
  | n + 1, .array items => items.all (fitsIn n)
  | n + 1, .object fields => fields.all fun field => fitsIn n field.2
  | _, _ => true

/-- What fits fits in more. -/
theorem fitsIn_mono {m n : Nat} (h : m ≤ n) {v : JsonValue φ} (hv : fitsIn m v = true) : fitsIn n v = true := by
  induction m generalizing n v with
  | zero =>
    cases v with
    | array items => cases hv
    | object fields => cases hv
    | _ => cases n <;> rfl
  | succ m ih =>
    cases n with
    | zero => cases h
    | succ n =>
      have hle : m ≤ n := Nat.le_of_succ_le_succ h
      cases v with
      | array items => exact List.all_eq_true.mpr fun v hmem => ih hle (List.all_eq_true.mp hv v hmem)
      | object fields => exact List.all_eq_true.mpr fun field hmem => ih hle (List.all_eq_true.mp hv field hmem)
      | _ => rfl

end JsonValue
end Lib
