import Fetech.Parsers

/-! The blocks of a JSON document (`fetech/adapters/documents.py`, `_parse_json`).

The parser walks a stack onto which it puts the children of a value in reverse. What is still to
come is then the leaves of what is on the stack, in its order (`jsonLoop_eq_ok`), so the blocks are
the leaves of the document and their locators are pointers to them. -/
namespace Fetech.Parsers
open Lib Lib.Except Archive JsonPointer

variable {φ : Type}

theorem pushReversed_eq (children stack : List (JsonFrame φ)) : pushReversed children stack = children ++ stack := by
  rw [pushReversed, List.foldl_reverse]
  induction children with
  | nil => rfl
  | cons frame rest ih => rw [List.foldr_cons, ih, List.cons_append]

/-- The block of a leaf below a pointer. -/
def leafBlock (pointer : Text) (leaf : Leaf φ) : Block φ := jsonBlock (pointer ++ JsonPointer.pointer leaf.1) leaf.2

/-- The blocks that are still to come of an entry of the stack. -/
def JsonFrame.blocks (frame : JsonFrame φ) : List (Block φ) := (leaves frame.value).map (leafBlock frame.pointer)

theorem blocks_under (pointer : Text) (step : Step) (v : JsonValue φ) :
    (leaves v).map (leafBlock (pointer ++ slash :: step.text)) = (under step (leaves v)).map (leafBlock pointer) := by
  rw [under, List.map_map]
  refine List.map_congr_left fun leaf _ => ?_
  show _ = jsonBlock (pointer ++ JsonPointer.pointer (step :: leaf.1)) leaf.2
  rw [leafBlock, JsonPointer.pointer, JsonPointer.pointer, List.flatMap_cons, List.append_assoc]

/-- A visit gives the blocks of its entry, at once or by its children. -/
theorem visitJson_blocks (frame : JsonFrame φ) :
    (visitJson frame).1 ++ (visitJson frame).2.flatMap JsonFrame.blocks = frame.blocks := by
  obtain ⟨pointer, value, depth⟩ := frame
  have hself : ∀ v : JsonValue φ, [jsonBlock pointer v] = [(([] : List Step), v)].map (leafBlock pointer) := by
    intro v
    rw [List.map_singleton, leafBlock, JsonPointer.pointer, List.flatMap_nil, List.append_nil]
  cases value with
  | array items =>
    by_cases hne : items = []
    · subst hne
      exact hself _
    · simp only [visitJson, List.isEmpty_iff, hne, if_false, List.nil_append, JsonFrame.blocks, leaves_array hne,
        List.map_flatMap, List.flatMap_map]
      exact List.flatMap_congr fun item _ => blocks_under pointer (.index item.2) item.1
  | object fields =>
    by_cases hne : fields = []
    · subst hne
      exact hself _
    · simp only [visitJson, List.isEmpty_iff, hne, if_false, List.nil_append, JsonFrame.blocks, leaves_object hne,
        List.map_flatMap, List.flatMap_map]
      exact List.flatMap_congr fun field _ => blocks_under pointer (.key field.1) field.2
  | _ => exact hself _

/-- **The blocks that are added are the leaves of what is on the stack**, from the top. -/
theorem jsonLoop_eq_ok {limits : DocumentLimits} {left : Nat} {stack : List (JsonFrame φ)} {blocks blocks' : List (Block φ)}
    (h : jsonLoop limits left stack blocks = .ok blocks') : blocks' = blocks ++ stack.flatMap JsonFrame.blocks := by
  induction left generalizing stack blocks with
  | zero =>
    cases stack with
    | nil =>
      cases h
      simp
    | cons frame stack =>
      rw [jsonLoop] at h
      split at h <;> cases h
  | succ left ih =>
    cases stack with
    | nil =>
      cases h
      simp
    | cons frame stack =>
      rw [jsonLoop] at h
      split at h
      · cases h
      · rw [ih h, pushReversed_eq, List.flatMap_append, List.flatMap_cons, ← visitJson_blocks frame]
        simp only [List.append_assoc]

theorem uniqueJsonObject_eq_some {pairs fields : List (Text × JsonValue φ)} (h : uniqueJsonObject pairs = some fields) :
    (fields.map Prod.fst).Nodup ∧ ∀ field ∈ fields, field ∈ pairs := by
  unfold uniqueJsonObject at h
  split at h
  · cases h
    exact ⟨‹_›, fun field hfield => hfield⟩
  · cases h

/-- `json:` before a pointer. -/
def jsonLocator (pointer : Text) : Text := Text.ofString "json:" ++ pointer

theorem jsonLocator_injective : Function.Injective jsonLocator := fun _ _ h => List.append_cancel_left h

theorem locatorOf_blockAt (locator : Text) (rest : List (String × JsonValue φ)) : locatorOf (blockAt locator rest) = locator := by
  simp [locatorOf, blockAt, JsonValue.get?]

/-- A document without children is one block, at the root. -/
def rootBlock (document : JsonValue φ) : Block φ := blockAt (jsonLocator [slash]) [("value", document)]

/-- What the blocks of a document say: its leaves in order, each at its own pointer, which leads to it. -/
structure DescribesLeaves (document : JsonValue φ) (parsed : Parsed φ) : Prop where
  values : parsed.blocks.map (fun block => JsonValue.get? block "value") = (leaves document).map fun leaf => some leaf.2
  locators : parsed.locators = parsed.blocks.map locatorOf
  distinct : parsed.locators.Nodup
  resolve : isLeaf document = false → ∀ block ∈ parsed.blocks, ∃ pointer value,
    block = blockAt (jsonLocator pointer) [("value", value)] ∧ JsonPointer.resolve pointer document = some value
  root : isLeaf document = true → parsed.blocks = [rootBlock document]

theorem leafBlock_nil {document : JsonValue φ} (h : isLeaf document = false) {leaf : Leaf φ} (hleaf : leaf ∈ leaves document) :
    leafBlock [] leaf = blockAt (jsonLocator (JsonPointer.pointer leaf.1)) [("value", leaf.2)] := by
  have hne : (JsonPointer.pointer leaf.1).isEmpty = false := by
    obtain ⟨step, path, hpath⟩ := List.exists_cons_of_ne_nil (path_ne_nil h leaf hleaf)
    rw [hpath]
    rfl
  rw [leafBlock, jsonBlock, List.nil_append, hne]
  rfl

theorem value_leafBlock (pointer : Text) (leaf : Leaf φ) : JsonValue.get? (leafBlock pointer leaf) "value" = some leaf.2 := by
  have hdiffer : ¬ Text.ofString "locator" = Text.ofString "value" := by decide
  simp [leafBlock, jsonBlock, blockAt, JsonValue.get?, hdiffer]

theorem describesLeaves {document : JsonValue φ} (h : document.HasUniqueKeys) {parsed : Parsed φ}
    (hblocks : parsed.blocks = (leaves document).map (leafBlock [])) (hlocators : parsed.locators = locators parsed.blocks) :
    DescribesLeaves document parsed := by
  refine ⟨?_, hlocators, ?_, fun hinner block hblock => ?_, fun hleaf => ?_⟩
  · rw [hblocks, List.map_map]
    exact List.map_congr_left fun leaf _ => value_leafBlock [] leaf
  · rw [hlocators, hblocks]
    cases hleaf : isLeaf document with
    | true =>
      rw [leaves_of_isLeaf hleaf]
      exact List.nodup_singleton _
    | false =>
      have hmap : locators ((leaves document).map (leafBlock [])) =
          ((leaves document).map fun leaf => JsonPointer.pointer leaf.1).map jsonLocator := by
        rw [locators, List.map_map, List.map_map]
        refine List.map_congr_left fun leaf hmem => ?_
        show locatorOf (leafBlock [] leaf) = _
        rw [leafBlock_nil hleaf hmem, locatorOf_blockAt]
        rfl
      rw [hmap]
      exact (nodup_pointers h).map jsonLocator_injective
  · rw [hblocks] at hblock
    obtain ⟨leaf, hleaf, rfl⟩ := List.mem_map.mp hblock
    exact ⟨_, leaf.2, leafBlock_nil hinner hleaf, resolve_pointer h leaf hleaf⟩
  · rw [hblocks, leaves_of_isLeaf hleaf]
    rfl

/-- **The blocks of a JSON document are its leaves**, depth first with keys in order; their locators
differ, and each is a pointer that leads to its value, but for a document that is a leaf itself. -/
theorem parseJson_describesLeaves (interpreter : Interpreter φ) (body : List UInt8) (limits : DocumentLimits) {parsed : Parsed φ}
    (h : parseJson interpreter body limits = .ok parsed) :
    ∃ text document, Utf8.decode (Utf8.withoutMark body) = some text ∧
      JsonText.loads interpreter.floats documentHooks (interpreter.recursionLimit text) text = some document ∧
      DescribesLeaves document parsed := by
  simp only [parseJson, bind_eq_ok, ofOption_eq_ok] at h
  obtain ⟨text, htext, document, hdocument, blocks, hblocks, hparsed⟩ := h
  cases hparsed
  have hunique := JsonText.hasUniqueKeys_loads (fun _ _ => uniqueJsonObject_eq_some) hdocument
  refine ⟨text, document, htext, hdocument, describesLeaves hunique ?_ rfl⟩
  have hall := jsonLoop_eq_ok hblocks
  rw [hall, List.nil_append, List.flatMap_singleton]
  rfl

/-- An interpreter without numbers that have a point. -/
def plainInterpreter : Interpreter Unit where
  floats := JsonText.Floats.none
  recursionLimit _ := 1000
  shallow := shallow_thousand

/-- Objects and a list in one another, with keys out of order that a pointer escapes. -/
def nestedBody : List UInt8 :=
  (("\x7b\"b/\": \x7b\"~\": [1, \"x\"]\x7d, \"a\": true\x7d").toList).map fun ch => ch.toNat.toUInt8

theorem parseJson_describesLeaves_list : ∃ parsed, parseJson plainInterpreter nestedBody {} = .ok parsed ∧
    parsed.locators = ["json:/a", "json:/b~1/~0/0", "json:/b~1/~0/1"].map Text.ofString ∧
    ∃ text document, Utf8.decode (Utf8.withoutMark nestedBody) = some text ∧
      JsonText.loads JsonText.Floats.none documentHooks 1000 text = some document ∧ DescribesLeaves document parsed := by
  have hlocators : (parseJson plainInterpreter nestedBody {}).toOption.map (·.locators) =
      some (["json:/a", "json:/b~1/~0/0", "json:/b~1/~0/1"].map Text.ofString) := by decide +kernel
  obtain ⟨parsed, hparsed, hlist⟩ := Option.map_eq_some_iff.mp hlocators
  exact ⟨parsed, Except.toOption_eq_some.mp hparsed, hlist,
    parseJson_describesLeaves plainInterpreter nestedBody {} (Except.toOption_eq_some.mp hparsed)⟩

/-- The pointer `/` of an empty list leads nowhere. -/
theorem root_not_resolved : ¬ ∀ (interpreter : Interpreter Unit) (body : List UInt8) (limits : DocumentLimits) (parsed : Parsed Unit),
    parseJson interpreter body limits = .ok parsed → ∀ text document, Utf8.decode (Utf8.withoutMark body) = some text →
      JsonText.loads interpreter.floats documentHooks (interpreter.recursionLimit text) text = some document →
      ∀ block ∈ parsed.blocks, ∃ pointer value,
        block = blockAt (jsonLocator pointer) [("value", value)] ∧ JsonPointer.resolve pointer document = some value := by
  intro h
  obtain ⟨pointer, value, hblock, hresolve⟩ := h plainInterpreter [0x5b, 0x5d] {}
    (Parsed.mk "json" [rootBlock (.array [])] [jsonLocator [slash]] "stdlib-json") (by rfl) [0x5b, 0x5d] (.array []) (by rfl)
    (by rfl) _ List.mem_cons_self
  have hlocator := congrArg locatorOf hblock
  rw [rootBlock, locatorOf_blockAt, locatorOf_blockAt] at hlocator
  rw [← jsonLocator_injective hlocator] at hresolve
  cases hresolve

end Fetech.Parsers
