import Fetech.Parsers.Rereading
import Fetech.Parsers.Worker

/-! What the parent makes of the worker's answers.

The answer is written with sorted keys and read back as it was written, so what the parent checks is
what the worker made, in another order. A check of a block does not depend on the order of its keys
(`validateWorkerBlock_sortBlock`), and so the parent's verdict is that on the worker's own blocks. -/
namespace Fetech.Parsers
open Lib Lib.Except Archive JsonText

variable {φ : Type} {f : Floats φ}

/-! ### Sorted keys -/

section
variable {block : Block φ} (hunique : (block.map Prod.fst).Nodup)
include hunique

theorem get?_sortBlock (key : String) : JsonValue.get? (sortBlock block) key = (JsonValue.get? block key).map sortKeys :=
  get?_sortKeys hunique key

theorem hasKeys_sortBlock (keys : List String) : JsonValue.hasKeys (sortBlock block) keys = JsonValue.hasKeys block keys := by
  have hkeys : ∀ key, key ∈ (sortBlock block).map Prod.fst ↔ key ∈ block.map Prod.fst := fun key =>
    (keys_sortKeys block).mem_iff
  rw [JsonValue.hasKeys, JsonValue.hasKeys]
  congr 1
  · rw [Bool.eq_iff_iff, List.all_eq_true, List.all_eq_true]
    constructor
    · intro h field hfield
      obtain ⟨field', hfield', heq⟩ := List.mem_map.mp ((hkeys field.1).mpr (List.mem_map_of_mem hfield))
      rw [← heq]
      exact h field' hfield'
    · intro h field hfield
      obtain ⟨field', hfield', heq⟩ := List.mem_map.mp ((hkeys field.1).mp (List.mem_map_of_mem hfield))
      rw [← heq]
      exact h field' hfield'
  · simp only [get?_sortBlock hunique, Option.isSome_map]

theorem isString_sortBlock {key : String} (h : isString (JsonValue.get? block key) = true) :
    isString (JsonValue.get? (sortBlock block) key) = true := by
  obtain ⟨t, ht⟩ := isString_eq_true h
  rw [get?_sortBlock hunique, ht]
  rfl

/-- **A block that is valid is so with its keys sorted.** -/
theorem validateWorkerBlock_sortBlock {observed : Text} (h : validateWorkerBlock f block observed = .ok ()) :
    validateWorkerBlock f (sortBlock block) observed = .ok () := by
  unfold validateWorkerBlock at h ⊢
  dsimp only at h ⊢
  split at h
  · rename_i htext
    rw [if_pos htext]
    rw [require_eq_ok, Bool.and_eq_true] at h ⊢
    exact ⟨(hasKeys_sortBlock hunique _).trans h.1, isString_sortBlock hunique h.2⟩
  · rename_i htext
    rw [if_neg htext]
    split at h
    · rename_i htable
      rw [if_pos htable]
      split at h
      · rename_i cells hcells
        simp only [bind_eq_ok, require_eq_ok] at h
        obtain ⟨_, hkeys, hscalar⟩ := h
        have hsorted : sortItems cells = cells := by
          rw [sortItems_eq]
          exact (List.map_congr_left fun cell hcell => sortKeys_scalar f (List.all_eq_true.mp hscalar cell hcell)).trans
            (List.map_id _)
        rw [get?_sortBlock hunique, hcells, Option.map_some, sortKeys, hsorted]
        dsimp only
        rw [hasKeys_sortBlock hunique, hkeys, hscalar]
        rfl
      · cases h
    · rename_i htable
      rw [if_neg htable]
      split at h
      · rename_i hjson
        rw [if_pos hjson]
        simp only [bind_eq_ok, require_eq_ok] at h
        obtain ⟨_, hkeys, hvalue⟩ := h
        obtain ⟨value, hget, hleaf⟩ := (Option.any_eq_true _ _).mp hvalue
        have hsorted : sortKeys value = value := by
          rw [Bool.or_eq_true] at hleaf
          exact hleaf.elim (sortKeys_scalar f) sortKeys_empty
        rw [hasKeys_sortBlock hunique, hkeys, get?_sortBlock hunique, hget, Option.map_some, hsorted, Option.any_some, hleaf]
        rfl
      · rename_i hjson
        rw [if_neg hjson]
        split at h
        · rename_i hxml
          rw [if_pos hxml]
          simp only [bind_eq_ok, require_eq_ok, Bool.and_eq_true, Bool.or_eq_true, Option.isNone_iff_eq_none] at h ⊢
          obtain ⟨_, ⟨⟨hlocator, htag⟩, hkeys⟩, _, hstring, _, hoptional, hattributes⟩ := h
          refine ⟨(), ⟨⟨?_, ?_⟩, ?_⟩, (), isString_sortBlock hunique hstring, (), ?_, ?_⟩
          · rw [get?_sortBlock hunique, Option.isSome_map]
            exact hlocator
          · rw [get?_sortBlock hunique, Option.isSome_map]
            exact htag
          · refine List.all_eq_true.mpr fun field hfield => ?_
            have hmem := (keys_sortKeys block).mem_iff.mp (List.mem_map_of_mem hfield)
            obtain ⟨field', hfield', heq⟩ := List.mem_map.mp hmem
            rw [← heq]
            exact List.all_eq_true.mp hkeys field' hfield'
          · refine hoptional.imp (fun hnone => ?_) (isString_sortBlock hunique)
            rw [get?_sortBlock hunique, hnone]
            rfl
          · rw [get?_sortBlock hunique]
            cases hget : JsonValue.get? block "attributes" with
            | none => rfl
            | some v =>
              rw [hget] at hattributes
              cases v with
              | object attributes =>
                rw [require_eq_ok, stringFields, mapM_isSome_iff] at hattributes
                rw [Option.map_some, sortKeys]
                dsimp only
                rw [require_eq_ok, stringFields, mapM_isSome_iff]
                intro field hfield
                rw [List.mem_insertionSort, sortFields_eq] at hfield
                obtain ⟨⟨key, value⟩, hfield', rfl⟩ := List.mem_map.mp hfield
                have hvalue := hattributes (key, value) hfield'
                cases value with
                | string s => rfl
                | _ => cases hvalue
              | _ => cases hattributes
        · rename_i hxml
          rw [if_neg hxml]
          split at h
          · rename_i hbinary
            rw [if_pos hbinary]
            split at h
            · rename_i size digest hsize hdigest
              rw [get?_sortBlock hunique, get?_sortBlock hunique, hsize, hdigest, hasKeys_sortBlock hunique]
              exact h
            · cases h
          · cases h

end

/-! ### The verdict on an answer -/

/-- What a parser has made: blocks of its format, at locators that differ. -/
structure Wellmade (f : Floats φ) (observed : String) (parsed : Parsed φ) : Prop where
  contract : ∃ family, documentResultContracts.find? (fun entry => Text.ofString entry.1 = Text.ofString observed) =
      some (observed, ⟨parsed.parser, parsed.type, family⟩) ∧
    ∀ locator ∈ parsed.locators, Text.startsWith (Text.ofString family) locator = true
  locators : parsed.locators = locators parsed.blocks
  distinct : parsed.locators.Nodup
  located : ∀ block ∈ parsed.blocks, JsonValue.get? block "locator" = some (.string (locatorOf block))
  unique : ∀ block ∈ parsed.blocks, (JsonValue.object block).HasUniqueKeys
  valid : ∀ block ∈ parsed.blocks, isWritable f (.object block) = true →
    validateWorkerBlock f block (Text.ofString observed) = .ok ()

/-- What the parent returns for what was parsed. -/
def resultOf (observed : String) (parsed : Parsed φ) : DocumentParseResult φ where
  document := sortBlock (documentOf parsed)
  locators := parsed.locators
  parser := parsed.parser
  observedCapability := Text.ofString observed
  parserComponents := []
  artifactBundleId := none
  fallbackReason := none

/-- A field that was given a name is found by it. -/
theorem get?_named (fields : List (String × JsonValue φ)) (key : String) :
    JsonValue.get? (named fields) key = fields.lookup key := by
  unfold named
  induction fields with
  | nil => rfl
  | cons field fields ih =>
    rw [JsonValue.get?] at ih
    rw [JsonValue.get?, List.map_cons, List.find?_cons, List.lookup_cons]
    by_cases hkey : field.1 = key
    · simp [hkey]
    · have hne : ¬ Text.ofString field.1 = Text.ofString key := fun heq => hkey (Text.ofString_inj heq)
      have hbeq : (key == field.1) = false := by simpa using Ne.symm hkey
      simp only [hne, decide_false, hbeq, ih]

theorem all_named (fields : List (String × JsonValue φ)) (keys : List String) :
    (named fields).all (fun field => (keys.map Text.ofString).contains field.1) =
      fields.all fun field => keys.contains field.1 := by
  have hkey : ∀ key : String, (keys.map Text.ofString).contains (Text.ofString key) = keys.contains key := by
    intro key
    rw [Bool.eq_iff_iff, List.contains_iff_mem, List.contains_iff_mem]
    exact List.mem_map_of_injective Text.ofString_inj
  simp only [named, List.all_map, Function.comp_def, hkey]

theorem hasKeys_named (fields : List (String × JsonValue φ)) (keys : List String) : JsonValue.hasKeys (named fields) keys =
    (fields.all (fun field => keys.contains field.1) && keys.all fun key => (fields.lookup key).isSome) := by
  simp only [JsonValue.hasKeys, get?_named, all_named]

theorem keys_named {fields : List (String × JsonValue φ)} (h : (fields.map Prod.fst).Nodup) :
    ((named fields).map Prod.fst).Nodup := by
  have hkeys : (named fields).map Prod.fst = (fields.map Prod.fst).map Text.ofString := by
    rw [named, List.map_map, List.map_map]
    rfl
  rw [hkeys]
  exact h.map Text.ofString_inj

theorem keys_workerAnswer (observed : String) (parsed : Parsed φ) : ((workerAnswer observed parsed).map Prod.fst).Nodup := by
  apply keys_named
  simp only [workerFields, List.map_cons, List.map_nil]
  decide

theorem keys_documentOf (parsed : Parsed φ) : ((documentOf parsed).map Prod.fst).Nodup := by
  apply keys_named
  simp only [documentFields, List.map_cons, List.map_nil]
  decide

theorem stringItems_map (items : List Text) : stringItems (φ := φ) (.array (items.map .string)) = some items := by
  induction items with
  | nil => rfl
  | cons t items ih =>
    rw [stringItems] at ih
    rw [List.map_cons, stringItems, List.mapM_cons, ih]
    rfl

theorem sortItems_strings (items : List Text) : sortItems (φ := φ) (items.map .string) = items.map .string := by
  rw [sortItems_eq, List.map_map]
  rfl

theorem mapM_blockLocator_sortBlock {blocks : List (Block φ)}
    (hlocated : ∀ block ∈ blocks, JsonValue.get? block "locator" = some (.string (locatorOf block)))
    (hunique : ∀ block ∈ blocks, (block.map Prod.fst).Nodup) :
    (sortItems (blocks.map .object)).mapM blockLocator = .ok (blocks.map fun block => (sortBlock block, locatorOf block)) := by
  rw [sortItems_eq, List.map_map]
  induction blocks with
  | nil => rfl
  | cons block blocks ih =>
    have hget := get?_sortBlock (hunique block List.mem_cons_self) "locator"
    rw [hlocated block List.mem_cons_self] at hget
    have hblock : blockLocator (sortKeys (.object block)) = .ok (sortBlock block, locatorOf block) := by
      show blockLocator (.object (sortBlock block)) = _
      rw [blockLocator, hget]
      rfl
    rw [List.map_cons, List.mapM_cons, ih (fun b hb => hlocated b (List.mem_cons_of_mem _ hb))
      (fun b hb => hunique b (List.mem_cons_of_mem _ hb))]
    show (blockLocator (sortKeys (.object block)) >>= _) = _
    rw [hblock]
    rfl

theorem startsWith_family {locators : List Text} {family : String}
    (h : ∀ locator ∈ locators, Text.startsWith (Text.ofString family) locator = true) :
    locators.all (Text.startsWith (Text.ofString family)) = true := List.all_eq_true.mpr h

/-- **A value can be stored** if it can be written and all its strings can be encoded. -/
theorem exists_encode_iff {v : JsonValue φ} : (∃ bytes, encodeDocument f v = some bytes) ↔
    isWritable f v = true ∧ JsonValue.every encodableHere v = true := by
  rw [encodeDocument]
  by_cases hw : isWritable f v = true
  · have hdumps : dumps f false v = some (write f false (sortKeys v)) := if_pos hw
    rw [hdumps, Option.bind_some, Utf8.encode, ← encodable_dumps hdumps]
    by_cases henc : Text.encodable (write f false (sortKeys v)) = true
    · rw [if_pos henc]
      exact iff_of_true ⟨_, rfl⟩ ⟨hw, henc⟩
    · rw [if_neg henc]
      exact iff_of_false (fun h => absurd h.choose_spec.symm (Option.some_ne_none _)) fun h => henc h.2
  · have hdumps : dumps f false v = none := if_neg hw
    rw [hdumps, Option.bind_none]
    exact iff_of_false (fun h => absurd h.choose_spec.symm (Option.some_ne_none _)) fun h => hw h.1

theorem encodeDocument_sortBlock (document : Block φ) :
    encodeDocument f (.object (sortBlock document)) = encodeDocument f (.object document) :=
  congrArg (fun text : Option Text => text.bind Utf8.encode) (dumps_sortKeys (.object document))

/-- No format of the worker's own is parsed by Docling, and so its provenance is plain. -/
theorem validateParserProvenance_plain {parser : String} (hparser : parser ≠ "docling") (observed : Text) :
    validateParserProvenance (some (.string (Text.ofString parser))) observed (JsonValue.object (φ := φ) []) (some .null) (some .null)
      none = .ok ([], none, none) := by
  have hne : ¬ Text.ofString parser = Text.ofString "docling" := fun heq => hparser (Text.ofString_inj heq)
  simp only [validateParserProvenance, stringFields, List.mapM_nil, hne, decide_false]
  rfl

theorem contract_plain {observed : String} {contract : Contract} (h : (observed, contract) ∈ documentResultContracts) :
    contract.parser ≠ "docling" := by
  have hall : ∀ entry ∈ documentResultContracts, entry.2.parser ≠ "docling" := by decide
  exact hall _ h

/-- What can be written of an answer can be of its document, and of each block. -/
theorem written_document {observed : String} {parsed : Parsed φ}
    (hw : isWritable f (.object (workerAnswer observed parsed)) = true) : isWritable f (.object (documentOf parsed)) = true := by
  have hfield : (Text.ofString "document", JsonValue.object (documentOf parsed)) ∈ workerAnswer observed parsed :=
    List.mem_cons_of_mem _ List.mem_cons_self
  exact ((JsonValue.every_object _).mp hw).2 _ hfield

theorem written_blocks {parsed : Parsed φ} (hw : isWritable f (.object (documentOf parsed)) = true) :
    ∀ block ∈ parsed.blocks, isWritable f (.object block) = true := by
  have hfield : (Text.ofString "blocks", JsonValue.array (parsed.blocks.map .object)) ∈ documentOf parsed :=
    List.mem_cons_of_mem _ List.mem_cons_self
  have hitems := ((JsonValue.every_object _).mp hw).2 _ hfield
  intro block hblock
  exact ((JsonValue.every_array _).mp hitems).2 _ (List.mem_map_of_mem hblock)

/-- **The parent's verdict on what a parser made**: too many blocks, too many bytes, or the result. -/
theorem validate_answer {limits : DocumentLimits} {observed : String} {parsed : Parsed φ} (h : Wellmade f observed parsed)
    (hpdf : isPdf (Text.ofString observed) = false) (hw : isWritable f (.object (documentOf parsed)) = true) {encoded : List UInt8}
    (hencoded : encodeDocument f (.object (documentOf parsed)) = some encoded) :
    validateWorkerResult f limits (Text.ofString observed) none (.object (sortBlock (workerAnswer observed parsed))) =
      if limits.maximumBlocks < parsed.blocks.length then .error (.execution "document worker returned invalid blocks")
      else if encoded.length ≤ limits.maximumOutputBytes then .ok (resultOf observed parsed)
      else .error (.execution "document worker exceeded the decompressed-byte budget") := by
  obtain ⟨family, hcontract, hfamily⟩ := h.contract
  have hget : ∀ key, JsonValue.get? (sortBlock (workerAnswer observed parsed)) key =
      ((workerFields observed parsed).lookup key).map sortKeys := by
    intro key
    rw [get?_sortBlock (keys_workerAnswer observed parsed), workerAnswer, get?_named]
  have hdocument : JsonValue.get? (sortBlock (workerAnswer observed parsed)) "document" =
      some (.object (sortBlock (documentOf parsed))) := hget "document"
  have hkeys : JsonValue.hasKeys (sortBlock (documentOf parsed)) ["blocks", "type"] = true := by
    rw [hasKeys_sortBlock (keys_documentOf parsed), documentOf, hasKeys_named]
    rfl
  have hblocks : JsonValue.get? (sortBlock (documentOf parsed)) "blocks" =
      some (.array (sortItems (parsed.blocks.map .object))) := by
    rw [get?_sortBlock (keys_documentOf parsed), documentOf, get?_named]
    rfl
  have htype : JsonValue.get? (sortBlock (documentOf parsed)) "type" = some (.string (Text.ofString parsed.type)) := by
    rw [get?_sortBlock (keys_documentOf parsed), documentOf, get?_named]
    rfl
  have hlength : (sortItems (parsed.blocks.map JsonValue.object)).length = parsed.blocks.length := by
    rw [sortItems_eq, List.length_map, List.length_map]
  have hlocators : JsonValue.get? (sortBlock (workerAnswer observed parsed)) "locators" =
      some (.array (parsed.locators.map .string)) := by
    rw [← sortItems_strings]
    exact hget "locators"
  have hobserved : JsonValue.get? (sortBlock (workerAnswer observed parsed)) "observed_capability" =
      some (.string (Text.ofString observed)) := hget "observed_capability"
  have hparser : JsonValue.get? (sortBlock (workerAnswer observed parsed)) "parser" =
      some (.string (Text.ofString parsed.parser)) := hget "parser"
  have hcomponents : JsonValue.get? (sortBlock (workerAnswer observed parsed)) "parser_components" = some (.object []) := hget "parser_components"
  have hbundle : JsonValue.get? (sortBlock (workerAnswer observed parsed)) "artifact_bundle_id" = some .null := hget "artifact_bundle_id"
  have hreason : JsonValue.get? (sortBlock (workerAnswer observed parsed)) "fallback_reason" = some .null := hget "fallback_reason"
  have hlocated := mapM_blockLocator_sortBlock h.located fun block hblock =>
    of_decide_eq_true ((JsonValue.every_object _).mp (h.unique block hblock)).1
  have hsnd : (parsed.blocks.map fun block => (sortBlock block, locatorOf block)).map Prod.snd = parsed.locators := by
    rw [h.locators, List.map_map]
    rfl
  have hwritten := written_blocks hw
  have hvalid : ((parsed.blocks.map fun block => (sortBlock block, locatorOf block)).map Prod.fst).forM
      (fun block => validateWorkerBlock f block (Text.ofString observed)) = .ok () := by
    rw [forM_eq_ok, List.map_map, List.forall_mem_map]
    intro block hblock
    have hkeys := of_decide_eq_true ((JsonValue.every_object _).mp (h.unique block hblock)).1
    exact validateWorkerBlock_sortBlock hkeys (h.valid block hblock (hwritten block hblock))
  have hprovenance : validateParserProvenance (some (.string (Text.ofString parsed.parser))) (Text.ofString observed)
      (JsonValue.object (φ := φ) []) (some .null) (some .null) none = .ok ([], none, none) :=
    validateParserProvenance_plain (contract_plain (List.mem_of_find?_eq_some hcontract)) _
  have hcontract : (documentResultContracts.find? fun entry => decide (Text.ofString entry.1 = Text.ofString observed)).map
      Prod.snd = some ⟨parsed.parser, parsed.type, family⟩ := by rw [hcontract]; rfl
  rw [← encodeDocument_sortBlock] at hencoded
  by_cases hcount : limits.maximumBlocks < parsed.blocks.length
  · have hmany : ¬ parsed.blocks.length ≤ limits.maximumBlocks := by omega
    simp only [validateWorkerResult, hdocument, hkeys, hblocks, hlength, hmany, hcount, bind, Except.bind, pure, Except.pure, require,
      if_true, decide_false, Bool.false_eq_true, if_false]
  · have hfew : parsed.blocks.length ≤ limits.maximumBlocks := by omega
    simp only [validateWorkerResult, hdocument, hkeys, hblocks, hlength, hfew, hcount, bind, Except.bind, pure, Except.pure, require,
      if_true, decide_true, hlocated, hlocators, Option.bind_some, stringItems_map, hsnd, h.distinct, Bool.and_self, hobserved,
      hparser, htype, hcontract, ofOption, Bool.true_or, hcomponents, hbundle, hreason, Option.getD_some, hprovenance,
      startsWith_family hfamily, hpdf, Bool.false_eq_true, if_false, Bool.false_and, hvalid, hencoded]
    by_cases hle : encoded.length ≤ limits.maximumOutputBytes
    · simp only [hle, decide_true, if_true]
      rfl
    · simp only [hle, decide_false, if_false, Bool.false_eq_true]

/-! ### The answer on the wire -/

/-- The parent reads what the worker wrote, with its keys sorted. -/
theorem read_object {library : ReaderLibrary φ} {document : Block φ} (hne : document ≠ [])
    (hfit : (JsonValue.object document).fitsIn 5 = true) (hunique : (JsonValue.object document).HasUniqueKeys)
    {stdout : List UInt8} (hstdout : encodeDocument library.floats (.object document) = some stdout) :
    ∃ text, decodeJson library.otherEncodings stdout = some text ∧ stdout ≠ [] ∧
      loads library.floats (readerHooks fun _ => none) (library.recursionLimit text) text = some (.object (sortBlock document)) := by
  obtain ⟨text, htext, hencode⟩ := Option.bind_eq_some_iff.mp hstdout
  have hdecode : decodeJson library.otherEncodings stdout = some text := decodeJson_encode hne htext hencode
  have hloads : loads library.floats (readerHooks fun _ => none) (library.recursionLimit text) text =
      some (.object (sortBlock document)) :=
    loads_dumps readerHooks_object (JsonValue.fitsIn_mono (library.shallow text) hfit) hunique htext
  refine ⟨text, hdecode, ?_, hloads⟩
  rintro rfl
  have hempty : decodeJson library.otherEncodings [] = some [] := rfl
  cases hempty.symm.trans hdecode
  have hnothing : loads library.floats (readerHooks fun _ => none) (library.recursionLimit []) [] = none := by
    cases library.recursionLimit [] with
    | zero => rfl
    | succ n => rfl
  exact Option.some_ne_none _ (hloads.symm.trans hnothing)

theorem hasUniqueKeys_named {fields : List (String × JsonValue φ)} (hkeys : (fields.map Prod.fst).Nodup)
    (hfields : ∀ field ∈ fields, field.2.HasUniqueKeys) : (JsonValue.object (named fields)).HasUniqueKeys := by
  refine (JsonValue.every_object _).mpr ⟨decide_eq_true (keys_named hkeys), fun field hfield => ?_⟩
  obtain ⟨field', hfield', rfl⟩ := List.mem_map.mp hfield
  exact hfields field' hfield'

theorem hasUniqueKeys_strings (items : List Text) : (JsonValue.array (φ := φ) (items.map .string)).HasUniqueKeys := by
  refine (JsonValue.every_array _).mpr ⟨rfl, fun v hv => ?_⟩
  obtain ⟨t, -, rfl⟩ := List.mem_map.mp hv
  rfl

section
variable {observed : String} {parsed : Parsed φ} (h : Wellmade f observed parsed)
include h

theorem Wellmade.hasUniqueKeys_documentOf : (JsonValue.object (documentOf parsed)).HasUniqueKeys := by
  apply hasUniqueKeys_named
  · simp only [documentFields, List.map_cons, List.map_nil]
    decide
  · simp only [documentFields, List.forall_mem_cons, List.not_mem_nil, false_implies, implies_true, and_true]
    refine ⟨rfl, (JsonValue.every_array _).mpr ⟨rfl, fun v hv => ?_⟩⟩
    obtain ⟨block, hblock, rfl⟩ := List.mem_map.mp hv
    exact h.unique block hblock

theorem Wellmade.hasUniqueKeys_workerAnswer : (JsonValue.object (workerAnswer observed parsed)).HasUniqueKeys := by
  apply hasUniqueKeys_named
  · simp only [workerFields, List.map_cons, List.map_nil]
    decide
  · simp only [workerFields, List.forall_mem_cons, List.not_mem_nil, false_implies, implies_true, and_true]
    exact ⟨rfl, h.hasUniqueKeys_documentOf, rfl, hasUniqueKeys_strings _, rfl, rfl, rfl⟩

/-- What the parent will check of the document holds of it already. -/
theorem Wellmade.accepted (hw : ∀ block ∈ parsed.blocks, isWritable f (.object block) = true) :
    Accepted f (Text.ofString observed) (documentOf parsed) (parsed.blocks.map fun block => (block, locatorOf block)) where
  keys := by
    rw [documentOf, hasKeys_named]
    rfl
  type := ⟨Text.ofString parsed.type, by rw [documentOf, get?_named]; rfl⟩
  blocks := by
    rw [documentOf, get?_named, List.map_map]
    rfl
  locator := List.forall_mem_map.mpr h.located
  valid := List.forall_mem_map.mpr fun block hblock => h.valid block hblock (hw block hblock)

theorem Wellmade.fitsIn_workerAnswer (hw : ∀ block ∈ parsed.blocks, isWritable f (.object block) = true) :
    (JsonValue.object (workerAnswer observed parsed)).fitsIn 5 = true := by
  have hdocument := fitsIn_document (h.accepted hw) h.hasUniqueKeys_documentOf
  have hlocators : (JsonValue.array (φ := φ) (parsed.locators.map .string)).fitsIn 4 = true := by
    refine List.all_eq_true.mpr fun v hv => ?_
    obtain ⟨t, -, rfl⟩ := List.mem_map.mp hv
    rfl
  have hall : ∀ field ∈ workerFields observed parsed, field.2.fitsIn 4 = true := by
    simp only [workerFields, List.forall_mem_cons, List.not_mem_nil, false_implies, implies_true, and_true]
    exact ⟨rfl, hdocument, rfl, hlocators, rfl, rfl, rfl⟩
  refine List.all_eq_true.mpr fun field hfield => ?_
  obtain ⟨field', hfield', rfl⟩ := List.mem_map.mp hfield
  exact hall field' hfield'

end

end Fetech.Parsers
