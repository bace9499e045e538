import Fetech.Api
import Fetech.Lib.Except

/-! What is checked of a decoded value, and what the cut of its lists leaves.

The check takes the values from a stack, and says no more than a recursion over the value would:
so many nodes, so deep, with keys that are strings and numbers that are finite. The cut is described
by the entries of a value, each with its path: those remain whose path has only indices below the
limit, each of them cut in turn, and what is counted is what the lists among them lose. -/
namespace Fetech.Api
open Lib Lib.JsonText

variable {φ : Type}

/-! ### The check as a recursion -/

namespace Payload

mutual
def nodeCount : Payload φ → Nat
  | .list items => 1 + itemCount items
  | .mapping fields => 1 + fieldCount fields
  | _ => 1

def itemCount : List (Payload φ) → Nat
  | [] => 0
  | v :: rest => nodeCount v + itemCount rest

def fieldCount : List (Key × Payload φ) → Nat
  | [] => 0
  | (_, v) :: rest => nodeCount v + fieldCount rest
end

mutual
/-- How deep lists and mappings stand in one another; a value that is neither has depth 1. -/
def depth : Payload φ → Nat
  | .list items => 1 + itemDepth items
  | .mapping fields => 1 + fieldDepth fields
  | _ => 1

def itemDepth : List (Payload φ) → Nat
  | [] => 0
  | v :: rest => max (depth v) (itemDepth rest)

def fieldDepth : List (Key × Payload φ) → Nat
  | [] => 0
  | (_, v) :: rest => max (depth v) (fieldDepth rest)
end

mutual
/-- Every key is a string, every number finite, and there is nothing that JSON does not have. -/
def isJson (f : Floats φ) : Payload φ → Bool
  | .list items => itemsJson f items
  | .mapping fields => fields.all (·.1 != .other) && fieldsJson f fields
  | .float x => f.isFinite x
  | .other => false
  | _ => true

def itemsJson (f : Floats φ) : List (Payload φ) → Bool
  | [] => true
  | v :: rest => isJson f v && itemsJson f rest

def fieldsJson (f : Floats φ) : List (Key × Payload φ) → Bool
  | [] => true
  | (_, v) :: rest => isJson f v && fieldsJson f rest
end

theorem itemCount_eq (items : List (Payload φ)) : itemCount items = (items.map nodeCount).sum := by
  induction items with
  | nil => rfl
  | cons v rest ih => rw [itemCount, ih, List.map_cons, List.sum_cons]

theorem fieldCount_eq (fields : List (Key × Payload φ)) : fieldCount fields = (fields.map (nodeCount ·.2)).sum := by
  induction fields with
  | nil => rfl
  | cons field rest ih => rw [fieldCount, ih, List.map_cons, List.sum_cons]

theorem itemDepth_le_iff {items : List (Payload φ)} {n : Nat} : itemDepth items ≤ n ↔ ∀ v ∈ items, depth v ≤ n := by
  induction items with
  | nil => simp [itemDepth]
  | cons v rest ih => rw [itemDepth, max_le_iff, ih, List.forall_mem_cons]

theorem fieldDepth_le_iff {fields : List (Key × Payload φ)} {n : Nat} :
    fieldDepth fields ≤ n ↔ ∀ field ∈ fields, depth field.2 ≤ n := by
  induction fields with
  | nil => simp [fieldDepth]
  | cons field rest ih => rw [fieldDepth, max_le_iff, ih, List.forall_mem_cons]

theorem one_le_nodeCount (v : Payload φ) : 1 ≤ nodeCount v := by
  cases v with
  | list items => exact Nat.le_add_right 1 _
  | mapping fields => exact Nat.le_add_right 1 _
  | _ => exact le_refl 1

theorem one_le_depth (v : Payload φ) : 1 ≤ depth v := by
  cases v with
  | list items => exact Nat.le_add_right 1 _
  | mapping fields => exact Nat.le_add_right 1 _
  | _ => exact le_refl 1

theorem itemsJson_iff {f : Floats φ} {items : List (Payload φ)} :
    itemsJson f items = true ↔ ∀ v ∈ items, isJson f v = true := by
  induction items with
  | nil => simp [itemsJson]
  | cons v rest ih => rw [itemsJson, Bool.and_eq_true, ih, List.forall_mem_cons]

theorem fieldsJson_iff {f : Floats φ} {fields : List (Key × Payload φ)} :
    fieldsJson f fields = true ↔ ∀ field ∈ fields, isJson f field.2 = true := by
  induction fields with
  | nil => simp [fieldsJson]
  | cons field rest ih => rw [fieldsJson, Bool.and_eq_true, ih, List.forall_mem_cons]

end Payload

open Payload

/-- What the check asks of the values on its stack: so many nodes in all, and each of them JSON and not too
deep for where it stands. -/
structure Fits (f : Floats φ) (maximumNodes maximumDepth nodes : Nat) (stack : List (Payload φ × Nat)) : Prop where
  count : nodes + (stack.map (nodeCount ·.1)).sum ≤ maximumNodes
  depth : ∀ entry ∈ stack, entry.2 + entry.1.depth ≤ maximumDepth + 1
  json : ∀ entry ∈ stack, isJson f entry.1 = true

variable {f : Floats φ} {maximumNodes maximumDepth nodes : Nat}

/-- A value fits if the values in it do, put on the stack in its place. -/
theorem fits_open {value : Payload φ} {d : Nat} {stack : List (Payload φ × Nat)} (hd : d ≤ maximumDepth)
    {α : Type} (children : List α) (child : α → Payload φ)
    (hcount : nodeCount value = 1 + (children.map fun a => nodeCount (child a)).sum)
    (hdepth : ∀ n, value.depth ≤ n + 1 ↔ ∀ a ∈ children, (child a).depth ≤ n)
    (hjson : isJson f value = true ↔ ∀ a ∈ children, isJson f (child a) = true) :
    Fits f maximumNodes maximumDepth nodes ((value, d) :: stack) ↔
      Fits f maximumNodes maximumDepth (nodes + 1) ((children.map fun a => (child a, d + 1)).reverse ++ stack) := by
  have hsum : (((children.map fun a => (child a, d + 1)).reverse ++ stack).map (nodeCount ·.1)).sum =
      (children.map fun a => nodeCount (child a)).sum + (stack.map (nodeCount ·.1)).sum := by
    rw [List.map_append, List.sum_append, List.map_reverse, List.sum_reverse, List.map_map]
    rfl
  have hinner : ∀ {P : Payload φ × Nat → Prop}, (∀ entry ∈ (children.map fun a => (child a, d + 1)).reverse ++ stack, P entry) ↔
      (∀ a ∈ children, P (child a, d + 1)) ∧ ∀ entry ∈ stack, P entry := by
    intro P
    simp only [List.forall_mem_append, List.mem_reverse, List.forall_mem_map]
  have hdeep : d + value.depth ≤ maximumDepth + 1 ↔ ∀ a ∈ children, d + 1 + (child a).depth ≤ maximumDepth + 1 := by
    have hroom := hdepth (maximumDepth - d)
    constructor
    · intro h a ha
      have := hroom.mp (by omega) a ha
      omega
    · intro h
      have := hroom.mpr fun a ha => by
        have := h a ha
        omega
      omega
  constructor
  · intro ⟨hnodes, hall, hjsons⟩
    rw [List.forall_mem_cons] at hall hjsons
    refine ⟨?_, hinner.mpr ⟨hdeep.mp hall.1, hall.2⟩, hinner.mpr ⟨hjson.mp hjsons.1, hjsons.2⟩⟩
    rw [List.map_cons, List.sum_cons, hcount] at hnodes
    rw [hsum]
    omega
  · intro ⟨hnodes, hall, hjsons⟩
    rw [hinner] at hall hjsons
    refine ⟨?_, List.forall_mem_cons.mpr ⟨hdeep.mpr hall.1, hall.2⟩, List.forall_mem_cons.mpr ⟨hjson.mpr hjsons.1, hjsons.2⟩⟩
    rw [hsum] at hnodes
    rw [List.map_cons, List.sum_cons, hcount]
    omega

/-- The same of a value that has none in it. -/
theorem fits_leaf {value : Payload φ} {d : Nat} {stack : List (Payload φ × Nat)} (hd : d ≤ maximumDepth)
    (hcount : nodeCount value = 1) (hdepth : value.depth = 1) (hjson : isJson f value = true) :
    Fits f maximumNodes maximumDepth nodes ((value, d) :: stack) ↔ Fits f maximumNodes maximumDepth (nodes + 1) stack :=
  fits_open hd ([] : List Unit) (fun _ => .null) hcount (fun n => by simp [hdepth]) (by simp [hjson])

theorem not_json_not_fits {value : Payload φ} {d : Nat} {stack : List (Payload φ × Nat)} (h : isJson f value = false) :
    ¬Fits f maximumNodes maximumDepth nodes ((value, d) :: stack) := fun hfits =>
  Bool.false_ne_true (h.symm.trans (hfits.json _ List.mem_cons_self))

/-- **The check by stack is the check by recursion.** -/
theorem validateStack_eq_ok_iff {stack : List (Payload φ × Nat)} (hnodes : nodes ≤ maximumNodes) :
    validateStack f maximumNodes maximumDepth nodes stack = .ok () ↔ Fits f maximumNodes maximumDepth nodes stack := by
  induction hm : maximumNodes - nodes using Nat.strong_induction_on generalizing nodes stack with
  | _ m ih =>
    cases stack with
    | nil =>
      rw [validateStack]
      exact iff_of_true rfl ⟨hnodes, List.forall_mem_nil _, List.forall_mem_nil _⟩
    | cons entry stack =>
      obtain ⟨value, d⟩ := entry
      unfold validateStack
      split
      · rename_i hlimit
        refine iff_of_false Except.error_ne_ok fun hfits => ?_
        have hcount := hfits.count
        have hone := one_le_nodeCount value
        rw [List.map_cons, List.sum_cons] at hcount
        dsimp only at hcount
        omega
      · split
        · rename_i hdeep
          refine iff_of_false Except.error_ne_ok fun hfits => ?_
          have hdepth := hfits.depth _ List.mem_cons_self
          have hone := one_le_depth value
          dsimp only at hdepth
          omega
        · rename_i hlimit hdeep
          have hd : d ≤ maximumDepth := Nat.le_of_not_lt hdeep
          have hnext : ∀ stack, validateStack f maximumNodes maximumDepth (nodes + 1) stack = .ok () ↔
              Fits f maximumNodes maximumDepth (nodes + 1) stack :=
            fun stack => ih _ (by omega) (Nat.le_of_not_lt hlimit) rfl
          cases value with
          | float x =>
            dsimp only
            split
            · rename_i hfinite
              have hjson : isJson f (.float x) = true := by rw [isJson, hfinite]
              exact (hnext _).trans (fits_leaf hd rfl rfl hjson).symm
            · rename_i hfinite
              have hjson : isJson f (.float x) = false := by rw [isJson, Bool.eq_false_of_not_eq_true hfinite]
              exact iff_of_false Except.error_ne_ok (not_json_not_fits hjson)
          | list items =>
            refine (hnext _).trans (fits_open hd items id (congrArg (1 + ·) (itemCount_eq items)) (fun n => ?_) ?_).symm
            · rw [depth, Nat.add_comm 1, Nat.add_le_add_iff_right]
              exact itemDepth_le_iff
            · rw [isJson]
              exact itemsJson_iff
          | mapping fields =>
            dsimp only
            split
            · rename_i hkeys
              refine (hnext _).trans (fits_open hd fields Prod.snd (congrArg (1 + ·) (fieldCount_eq fields)) (fun n => ?_) ?_).symm
              · rw [depth, Nat.add_comm 1, Nat.add_le_add_iff_right]
                exact fieldDepth_le_iff
              · rw [isJson, hkeys, Bool.true_and]
                exact fieldsJson_iff
            · rename_i hkeys
              refine iff_of_false Except.error_ne_ok (not_json_not_fits ?_)
              rw [isJson, Bool.eq_false_of_not_eq_true hkeys, Bool.false_and]
          | other => exact iff_of_false Except.error_ne_ok (not_json_not_fits rfl)
          | null => exact (hnext _).trans (fits_leaf hd rfl rfl rfl).symm
          | bool b => exact (hnext _).trans (fits_leaf hd rfl rfl rfl).symm
          | int n => exact (hnext _).trans (fits_leaf hd rfl rfl rfl).symm
          | string s => exact (hnext _).trans (fits_leaf hd rfl rfl rfl).symm

/-! ### What stands where in a value -/

inductive Step where
  | index (i : Nat)
  | key (k : Key)
  deriving DecidableEq

abbrev Path := List Step

namespace Payload

mutual
/-- A value and all values in it, each with the path to it. -/
def entries : Payload φ → List (Path × Payload φ)
  | .list items => ([], .list items) :: itemEntries 0 items
  | .mapping fields => ([], .mapping fields) :: fieldEntries fields
  | v => [([], v)]

def itemEntries (i : Nat) : List (Payload φ) → List (Path × Payload φ)
  | [] => []
  | v :: rest => ((entries v).map fun entry => (.index i :: entry.1, entry.2)) ++ itemEntries (i + 1) rest

def fieldEntries : List (Key × Payload φ) → List (Path × Payload φ)
  | [] => []
  | (k, v) :: rest => ((entries v).map fun entry => (.key k :: entry.1, entry.2)) ++ fieldEntries rest
end

/-- The number of elements, of a list. -/
def width : Payload φ → Nat
  | .list items => items.length
  | _ => 0

/-- The keys, of a mapping. -/
def keys : Payload φ → Option (List Key)
  | .mapping fields => some (fields.map Prod.fst)
  | _ => none

end Payload

/-- The step does not lead beyond the limit. -/
def Step.within (maximumRecords : Nat) : Step → Bool
  | .index i => i < maximumRecords
  | .key _ => true

/-- No list on the path is cut before it. -/
def survives (maximumRecords : Nat) (path : Path) : Bool := path.all (Step.within maximumRecords)

/-- The entries that the cut leaves where they are. -/
def survivors (maximumRecords : Nat) (entries : List (Path × Payload φ)) : List (Path × Payload φ) :=
  entries.filter fun entry => survives maximumRecords entry.1

def cut (maximumRecords : Nat) (v : Payload φ) : Payload φ := (truncateJsonLists maximumRecords v).1

/-- How many elements lists among the entries lose. -/
def lost (maximumRecords : Nat) (entries : List (Path × Payload φ)) : Nat :=
  (entries.map fun entry => entry.2.width - maximumRecords).sum

variable {n : Nat}

/-- Under one more step that stays within the limit, the same entries survive. -/
theorem survivors_under {step : Step} (h : step.within n = true) (entries : List (Path × Payload φ)) :
    survivors n (entries.map fun entry => (step :: entry.1, entry.2)) =
      (survivors n entries).map fun entry => (step :: entry.1, entry.2) := by
  unfold survivors
  rw [List.filter_map]
  refine congrArg _ (List.filter_congr fun entry _ => ?_)
  show ((step :: entry.1).all (Step.within n)) = _
  rw [List.all_cons, h, Bool.true_and]
  rfl

theorem survivors_beyond {step : Step} (h : step.within n = false) (entries : List (Path × Payload φ)) :
    survivors n (entries.map fun entry => (step :: entry.1, entry.2)) = [] := by
  refine List.filter_eq_nil_iff.mpr fun entry hentry => ?_
  obtain ⟨inner, -, rfl⟩ := List.mem_map.mp hentry
  rw [survives, List.all_cons, h]
  exact Bool.false_ne_true

theorem survivors_append (entries entries' : List (Path × Payload φ)) :
    survivors n (entries ++ entries') = survivors n entries ++ survivors n entries' := List.filter_append ..

theorem lost_append (entries entries' : List (Path × Payload φ)) :
    lost n (entries ++ entries') = lost n entries + lost n entries' := by
  unfold lost
  rw [List.map_append, List.sum_append]

theorem lost_under (step : Step) (entries : List (Path × Payload φ)) :
    lost n (entries.map fun entry => (step :: entry.1, entry.2)) = lost n entries := by
  unfold lost
  rw [List.map_map]
  rfl

/-- The survivors of a value, each of them cut. -/
def cutSurvivors (maximumRecords : Nat) (entries : List (Path × Payload φ)) : List (Path × Payload φ) :=
  (survivors maximumRecords entries).map fun entry => (entry.1, cut maximumRecords entry.2)

theorem cutSurvivors_append (entries entries' : List (Path × Payload φ)) :
    cutSurvivors n (entries ++ entries') = cutSurvivors n entries ++ cutSurvivors n entries' := by
  rw [cutSurvivors, survivors_append, List.map_append]
  rfl

theorem cutSurvivors_under {step : Step} (h : step.within n = true) (entries : List (Path × Payload φ)) :
    cutSurvivors n (entries.map fun entry => (step :: entry.1, entry.2)) =
      (cutSurvivors n entries).map fun entry => (step :: entry.1, entry.2) := by
  rw [cutSurvivors, survivors_under h, List.map_map, cutSurvivors, List.map_map]
  rfl

/-- What the cut of a value comes to. -/
def CutProperly (maximumRecords : Nat) (v : Payload φ) : Prop :=
  entries (cut maximumRecords v) = cutSurvivors maximumRecords (entries v) ∧
    (truncateJsonLists maximumRecords v).2 = lost maximumRecords (survivors maximumRecords (entries v))

/-- One value under a step within the limit, and more after it. -/
theorem cutProperly_under {step : Step} (hstep : step.within n = true) {v : Payload φ} (hv : CutProperly n v)
    {rest rest' : List (Path × Payload φ)} {count : Nat} (hrest : rest' = cutSurvivors n rest)
    (hcount : count = lost n (survivors n rest)) :
    (entries (cut n v)).map (fun entry => (step :: entry.1, entry.2)) ++ rest' =
        cutSurvivors n ((entries v).map (fun entry => (step :: entry.1, entry.2)) ++ rest) ∧
      (truncateJsonLists n v).2 + count =
        lost n (survivors n ((entries v).map (fun entry => (step :: entry.1, entry.2)) ++ rest)) := by
  constructor
  · rw [cutSurvivors_append, cutSurvivors_under hstep, hv.1, hrest]
  · rw [survivors_append, survivors_under hstep, lost_append, lost_under, hv.2, hcount]

/-- The items of a list from `i` on, of which as many are kept as the limit leaves. -/
theorem truncateItems_properly {items : List (Payload φ)} (h : ∀ v ∈ items, CutProperly n v) {i room : Nat} (hroom : room = n - i) :
    itemEntries i (truncateItems n room items).1 = cutSurvivors n (itemEntries i items) ∧
      (truncateItems n room items).2 = lost n (survivors n (itemEntries i items)) := by
  induction items generalizing i room with
  | nil =>
    cases room with
    | zero => exact ⟨rfl, rfl⟩
    | succ room => exact ⟨rfl, rfl⟩
  | cons v rest ih =>
    rw [List.forall_mem_cons] at h
    cases room with
    | zero =>
      have hbeyond : Step.within n (.index i) = false := decide_eq_false (by omega)
      have hrest := ih h.2 (show 0 = n - (i + 1) by omega)
      have hnone : truncateItems n 0 rest = ([], 0) := by cases rest <;> rfl
      rw [hnone] at hrest
      rw [cutSurvivors, itemEntries, survivors_append, survivors_beyond hbeyond, List.nil_append]
      exact hrest
    | succ room =>
      have hwithin : Step.within n (.index i) = true := decide_eq_true (by omega)
      obtain ⟨hitems, hcount⟩ := ih h.2 (show room = n - (i + 1) by omega)
      exact cutProperly_under hwithin h.1 hitems hcount

theorem truncateFields_properly {fields : List (Key × Payload φ)} (h : ∀ field ∈ fields, CutProperly n field.2) :
    fieldEntries (truncateFields n fields).1 = cutSurvivors n (fieldEntries fields) ∧
      (truncateFields n fields).2 = lost n (survivors n (fieldEntries fields)) := by
  induction fields with
  | nil => exact ⟨rfl, rfl⟩
  | cons field rest ih =>
    rw [List.forall_mem_cons] at h
    obtain ⟨hfields, hcount⟩ := ih h.2
    exact cutProperly_under rfl h.1 hfields hcount

theorem truncateFields_keys (fields : List (Key × Payload φ)) :
    (truncateFields n fields).1.map Prod.fst = fields.map Prod.fst := by
  induction fields with
  | nil => rfl
  | cons field rest ih => exact congrArg (field.1 :: ·) ih

theorem truncateItems_length (items : List (Payload φ)) (room : Nat) :
    (truncateItems n room items).1.length = min room items.length := by
  induction items generalizing room with
  | nil =>
    cases room with
    | zero => rfl
    | succ room => rfl
  | cons v rest ih =>
    cases room with
    | zero => exact (Nat.zero_min _).symm
    | succ room =>
      rw [truncateItems, List.length_cons, List.length_cons, ih, Nat.succ_min_succ]

theorem keys_cut (v : Payload φ) : keys (cut n v) = keys v := by
  cases v with
  | mapping fields => exact congrArg some (truncateFields_keys fields)
  | _ => rfl

theorem width_cut (v : Payload φ) : width (cut n v) = min n v.width := by
  cases v with
  | list items => exact truncateItems_length items n
  | _ => exact (Nat.min_zero n).symm

/-- **The cut leaves the survivors**, each of them cut, and counts what they lose. -/
theorem cut_properly (v : Payload φ) : CutProperly n v := by
  induction v using Payload.induction with
  | list items ih =>
    obtain ⟨hitems, hcount⟩ := truncateItems_properly ih (i := 0) (Nat.sub_zero n).symm
    refine ⟨congrArg (_ :: ·) hitems, ?_⟩
    show items.length - n + _ = _
    rw [hcount]
    rfl
  | mapping fields ih =>
    obtain ⟨hfields, hcount⟩ := truncateFields_properly ih
    refine ⟨congrArg (_ :: ·) hfields, ?_⟩
    show (truncateFields n fields).2 = 0 - n + _
    rw [hcount, Nat.zero_sub, Nat.zero_add]
    rfl
  | _ => exact ⟨rfl, (Nat.zero_sub n).symm⟩

/-! ### Cutting again -/

theorem truncateItems_again {items : List (Payload φ)} (h : ∀ v ∈ items, truncateJsonLists n (cut n v) = (cut n v, 0)) (room : Nat) :
    truncateItems n room (truncateItems n room items).1 = ((truncateItems n room items).1, 0) := by
  induction items generalizing room with
  | nil =>
    cases room with
    | zero => rfl
    | succ room => rfl
  | cons v rest ih =>
    rw [List.forall_mem_cons] at h
    cases room with
    | zero => rfl
    | succ room =>
      have hv : truncateJsonLists n (truncateJsonLists n v).1 = ((truncateJsonLists n v).1, 0) := h.1
      simp only [truncateItems, hv, ih h.2 room]

theorem truncateFields_again {fields : List (Key × Payload φ)}
    (h : ∀ field ∈ fields, truncateJsonLists n (cut n field.2) = (cut n field.2, 0)) :
    truncateFields n (truncateFields n fields).1 = ((truncateFields n fields).1, 0) := by
  induction fields with
  | nil => rfl
  | cons field rest ih =>
    rw [List.forall_mem_cons] at h
    have hv : truncateJsonLists n (truncateJsonLists n field.2).1 = ((truncateJsonLists n field.2).1, 0) := h.1
    simp only [truncateFields, hv, ih h.2]

theorem truncate_again (v : Payload φ) : truncateJsonLists n (cut n v) = (cut n v, 0) := by
  induction v using Payload.induction with
  | list items ih =>
    have hwidth : (truncateItems n n items).1.length - n = 0 := by
      rw [truncateItems_length]
      omega
    show (Payload.list (truncateItems n n (truncateItems n n items).1).1, (truncateItems n n items).1.length - n +
      (truncateItems n n (truncateItems n n items).1).2) = _
    rw [truncateItems_again ih n, hwidth]
    rfl
  | mapping fields ih =>
    show (Payload.mapping (truncateFields n (truncateFields n fields).1).1, (truncateFields n (truncateFields n fields).1).2) = _
    rw [truncateFields_again ih]
    rfl
  | _ => rfl

/-! ### The whole -/

theorem validateJsonStructure_eq_ok_iff (data : Payload φ) : validateJsonStructure f maximumNodes maximumDepth data = .ok () ↔
    data.nodeCount ≤ maximumNodes ∧ data.depth ≤ maximumDepth ∧ data.isJson f = true := by
  rw [validateJsonStructure, validateStack_eq_ok_iff (Nat.zero_le _)]
  constructor
  · intro ⟨hcount, hdepth, hjson⟩
    have hdeep : 1 + data.depth ≤ maximumDepth + 1 := hdepth _ List.mem_cons_self
    rw [List.map_singleton, List.sum_singleton, Nat.zero_add] at hcount
    exact ⟨hcount, by omega, hjson _ List.mem_cons_self⟩
  · intro ⟨hcount, hdepth, hjson⟩
    refine ⟨?_, ?_, ?_⟩
    · rw [List.map_singleton, List.sum_singleton, Nat.zero_add]
      exact hcount
    · rw [List.forall_mem_singleton]
      show 1 + data.depth ≤ maximumDepth + 1
      omega
    · rw [List.forall_mem_singleton]
      exact hjson

/-- **The cut of a decoded value**: what stood on a path without an index beyond the limit stands there still,
cut itself; no list is longer than the limit and no mapping loses a key; the count is what the surviving lists
lose; and cutting again changes nothing. And the check accepts a value exactly if its nodes, its depth, its
keys and its numbers are within the limits. -/
theorem truncateJsonLists_spec (f : Floats φ) (maximumNodes maximumDepth maximumRecords : Nat) (data : Payload φ) :
    (entries (truncateJsonLists maximumRecords data).1 =
      (survivors maximumRecords (entries data)).map fun entry => (entry.1, (truncateJsonLists maximumRecords entry.2).1)) ∧
    (∀ entry ∈ entries (truncateJsonLists maximumRecords data).1, entry.2.width ≤ maximumRecords) ∧
    (∀ v : Payload φ, keys (truncateJsonLists maximumRecords v).1 = keys v) ∧
    (truncateJsonLists maximumRecords data).2 = lost maximumRecords (survivors maximumRecords (entries data)) ∧
    truncateJsonLists maximumRecords (truncateJsonLists maximumRecords data).1 = ((truncateJsonLists maximumRecords data).1, 0) ∧
    (validateJsonStructure f maximumNodes maximumDepth data = .ok () ↔
      data.nodeCount ≤ maximumNodes ∧ data.depth ≤ maximumDepth ∧ data.isJson f = true) := by
  obtain ⟨hentries, hcount⟩ := cut_properly (n := maximumRecords) data
  refine ⟨hentries, fun entry hentry => ?_, keys_cut, hcount, truncate_again data, validateJsonStructure_eq_ok_iff data⟩
  have hentry : entry ∈ cutSurvivors maximumRecords (entries data) := hentries ▸ hentry
  obtain ⟨survivor, -, rfl⟩ := List.mem_map.mp hentry
  rw [width_cut]
  exact Nat.min_le_left _ _

end Fetech.Api
