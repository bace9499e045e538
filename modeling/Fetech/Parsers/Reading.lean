import Fetech.Lib.JsonEncoding
import Fetech.Parsers.Results

/-! The text of a document, by two renderers (`_document_text` of `fetech/adapters/documents.py`,
`_normalized_document_text` of `fetech/adapters/reader.py`).

One renders the document that was parsed, the other what it was stored as, block by block and
within a bound. -/
namespace Fetech.Parsers
open Lib Lib.Except Archive JsonText

variable {φ : Type}

/-! ### Strings of values -/

/-- `str(value)`; of a list or a dictionary it is a parameter. -/
def str (f : Floats φ) (container : JsonValue φ → Text) : JsonValue φ → Text
  | .null => Text.ofString "None"
  | .bool true => Text.ofString "True"
  | .bool false => Text.ofString "False"
  | .int n => writeInt n
  | .float x => f.repr x
  | .string s => s
  | v => container v

def newline : CodePoint := 0x0a

def space : CodePoint := 0x20

section
variable (f : Floats φ) (container : JsonValue φ → Text)

/-- `"" if cell is None else str(cell)` -/
def cellText : JsonValue φ → Text
  | .null => []
  | cell => str f container cell

/-- `" ".join(…)` over cells. -/
def cellsText (cells : List (JsonValue φ)) : Text := [space].intercalate (cells.map (cellText f container))

/-! ### `_document_text` -/

/-- The part of a block, if it has one; `none` is what `json.dumps` raises. -/
def documentPart (block : Block φ) : Option (Option Text) :=
  match JsonValue.get? block "text", JsonValue.get? block "cells", JsonValue.get? block "value", JsonValue.get? block "locator" with
  | some text, _, _, _ => some (some (str f container text))
  | none, some (.array cells), _, _ => some (some (cellsText f container cells))
  | none, some _, _, _ => none
  | none, none, some value, _ => (dumps f false value).map some
  | none, none, none, some locator => some (some (str f container locator))
  | none, none, none, none => some none

/-- `"\n".join(parts)` -/
def joinParts (parts : List Text) : Text := [newline].intercalate parts

/-- What a block gives, if it is a dictionary; else `in` raises. -/
def documentItem : JsonValue φ → Option (Option Text)
  | .object block => documentPart f container block
  | _ => none

/-- `_document_text`; `none` is what it raises. -/
def documentText (document : Block φ) : Option Text :=
  match JsonValue.get? document "blocks" with
  | some (.array blocks) => (blocks.mapM (documentItem f container)).map fun parts => joinParts (parts.filterMap id)
  | some _ => none
  | none => some []

/-! ### `_normalized_document_text` -/

inductive ReaderError where
  | budget (message : String)
  | execution (message : String)
  deriving DecidableEq

def invalidArtifact : ReaderError := .execution "reader received an invalid normalized document artifact"

/-- Whether `json.detect_encoding` takes bytes for UTF-8 without a mark. -/
def looksUtf8 (bytes : List UInt8) : Bool :=
  !([[0, 0, 0xfe, 0xff], [0xff, 0xfe], [0xfe, 0xff], [0xef, 0xbb, 0xbf]].any (·.isPrefixOf bytes)) &&
    (bytes.length = 0 || bytes.length = 1 || bytes.length = 3 || (bytes.take 2).all (· ≠ 0))

/-- The text that `json.loads` takes bytes for. The other encodings are a parameter. -/
def decodeJson (others : List UInt8 → Option Text) (bytes : List UInt8) : Option Text :=
  if looksUtf8 bytes then Utf8.decodeSurrogatePass bytes else others bytes

/-- The value of a block for the reader, if it has one; `none` is what `json.dumps` raises. -/
def readerValue (block : Block φ) : Option (Option Text) :=
  match JsonValue.get? block "text", JsonValue.get? block "cells", JsonValue.get? block "value", JsonValue.get? block "locator" with
  | some (.string text), _, _, _ => some (some text)
  | _, some (.array cells), _, _ => some (some (cellsText f container cells))
  | _, _, some value, _ => (dumps f false value).map some
  | _, _, _, some (.string locator) => some (some locator)
  | _, _, _, _ => some none

/-- The variables of the loop. -/
structure ReaderParts where
  parts : List Text := []
  size : Nat := 0

/-- One turn of the loop. -/
def addBlock (maximumBytes : Nat) (s : ReaderParts) : JsonValue φ → Except ReaderError ReaderParts
  | .object block => do
    let value ← ofOption invalidArtifact (readerValue f container block)
    match value with
    | none => return s
    | some value => do
      let encodedSize ← ofOption invalidArtifact value.utf8Length?
      let size := s.size + encodedSize + if s.parts.isEmpty then 0 else 1
      require (size ≤ maximumBytes)
        (.budget "normalized document text exceeds the remaining decompressed byte budget")
      return {parts := s.parts ++ [value], size}
  | _ => .error invalidArtifact

/-- The blocks that the reader takes at most. -/
def maximumReaderBlocks : Nat := 10000

/-- The hooks of a plain `json.loads`: a constant is a number, the last of equal keys counts. -/
def readerHooks (constant : Text → Option φ) : Hooks φ where
  constant := constant
  object pairs := some (pairs.foldl (fun fields pair =>
    if fields.any (·.1 = pair.1) then fields.map fun field => if field.1 = pair.1 then pair else field
    else fields ++ [pair]) [])

end

/-- What the reader takes from the interpreter and its library. -/
structure ReaderLibrary (φ : Type) extends Interpreter φ where
  container : JsonValue φ → Text
  constant : Text → Option φ
  otherEncodings : List UInt8 → Option Text

/-- `_normalized_document_text`. -/
def normalizedDocumentText (library : ReaderLibrary φ) (body : List UInt8) (maximumBytes : Nat) :
    Except ReaderError Text := do
  let text ← ofOption invalidArtifact (decodeJson library.otherEncodings body)
  let document ← ofOption invalidArtifact
    (loads library.floats (readerHooks library.constant) (library.recursionLimit text) text)
  match document with
  | .object fields =>
    match JsonValue.get? fields "blocks" with
    | some (.array blocks) => do
      require (blocks.length ≤ maximumReaderBlocks) invalidArtifact
      let s ← blocks.foldlM (addBlock library.floats library.container maximumBytes) {}
      return joinParts s.parts
    | _ => .error invalidArtifact
  | _ => .error invalidArtifact

/-! ### What a valid block renders as -/

section
variable (f : Floats φ) (container : JsonValue φ → Text)

/-- What a block that was accepted holds, and its text. -/
inductive Rendering (block : Block φ) : Text → Prop
  | text (t : Text) (h : JsonValue.get? block "text" = some (.string t)) : Rendering block t
  | cells (cells : List (JsonValue φ)) (htext : JsonValue.get? block "text" = none)
      (hcells : JsonValue.get? block "cells" = some (.array cells)) (hscalar : ∀ cell ∈ cells, isJsonScalar f cell = true) :
      Rendering block (cellsText f container cells)
  | value (v : JsonValue φ) (t : Text) (htext : JsonValue.get? block "text" = none)
      (hcells : JsonValue.get? block "cells" = none) (hvalue : JsonValue.get? block "value" = some v)
      (hflat : isJsonScalar f v = true ∨ isEmptyContainer v = true) (ht : dumps f false v = some t) : Rendering block t
  | locator (t : Text) (htext : JsonValue.get? block "text" = none) (hcells : JsonValue.get? block "cells" = none)
      (hvalue : JsonValue.get? block "value" = none) (hlocator : JsonValue.get? block "locator" = some (.string t)) :
      Rendering block t

theorem sortKeys_scalar {v : JsonValue φ} (h : isJsonScalar f v = true) : sortKeys v = v := by
  cases v with
  | array items => cases h
  | object fields => cases h
  | _ => rfl

theorem sortKeys_empty {v : JsonValue φ} (h : isEmptyContainer v = true) : sortKeys v = v := by
  cases v with
  | array items =>
    cases items with
    | nil => rfl
    | cons v rest => cases h
  | object fields =>
    cases fields with
    | nil => rfl
    | cons field rest => cases h
  | _ => rfl

variable {f container}

/-- The adapter's renderer. -/
theorem Rendering.documentPart_eq {block : Block φ} {t : Text} (h : Rendering f container block t) :
    documentPart f container block = some (some t) := by
  cases h with
  | text t h =>
    rw [documentPart, h]
    rfl
  | cells cells htext hcells hscalar => simp [documentPart, htext, hcells]
  | value v t htext hcells hvalue hflat ht => simp [documentPart, htext, hcells, hvalue, ht]
  | locator t htext hcells hvalue hlocator =>
    simp [documentPart, htext, hcells, hvalue, hlocator, str]

/-- The reader's, of the block as it was stored. -/
theorem Rendering.readerValue_eq {block : Block φ} {t : Text} (h : Rendering f container block t)
    (hunique : (block.map Prod.fst).Nodup) :
    readerValue f container ((sortFields block).insertionSort fun field field' => field.1 ≤ field'.1) = some (some t) := by
  unfold readerValue
  rw [get?_sortKeys hunique, get?_sortKeys hunique, get?_sortKeys hunique, get?_sortKeys hunique]
  cases h with
  | text t h =>
    rw [h]
    rfl
  | cells cells htext hcells hscalar =>
    have hsorted : sortItems cells = cells := by
      rw [sortItems_eq]
      conv => rhs; rw [← List.map_id cells]
      exact List.map_congr_left fun cell hcell => sortKeys_scalar f (hscalar cell hcell)
    simp [htext, hcells, sortKeys, hsorted]
  | value v t htext hcells hvalue hflat ht =>
    have hsorted : sortKeys v = v := hflat.elim (sortKeys_scalar f) sortKeys_empty
    simp [htext, hcells, hvalue, hsorted, ht]
  | locator t htext hcells hvalue hlocator => simp [htext, hcells, hvalue, hlocator, sortKeys]

/-- A field that no key stands for. -/
theorem get?_eq_none {block : Block φ} {keys : List String} (key : String)
    (h : ∀ field ∈ block, field.1 ∈ keys.map Text.ofString) (hkey : Text.ofString key ∉ keys.map Text.ofString) :
    JsonValue.get? block key = none := by
  rw [JsonValue.get?, Option.map_eq_none_iff, List.find?_eq_none]
  intro field hfield
  rw [decide_eq_true_eq]
  intro heq
  exact hkey (heq ▸ h field hfield)

theorem keys_of_hasKeys {block : Block φ} {keys : List String} (h : JsonValue.hasKeys block keys = true) :
    ∀ field ∈ block, field.1 ∈ keys.map Text.ofString := by
  rw [JsonValue.hasKeys, Bool.and_eq_true, List.all_eq_true] at h
  intro field hfield
  exact List.contains_iff_mem.mp (h.1 field hfield)

theorem exists_of_get? {block : Block φ} {key : String} {v : JsonValue φ} (h : JsonValue.get? block key = some v) :
    ∃ field ∈ block, field.2 = v := by
  rw [JsonValue.get?, Option.map_eq_some_iff] at h
  obtain ⟨field, hfield, heq⟩ := h
  exact ⟨field, List.mem_of_find?_eq_some hfield, heq⟩

theorem isString_eq_true {v : Option (JsonValue φ)} (h : isString v = true) : ∃ t, v = some (.string t) := by
  unfold isString at h
  split at h
  · exact ⟨_, rfl⟩
  · cases h

/-- **Every block that is accepted renders**, by what its format lets it hold. -/
theorem rendering_of_validate {block : Block φ} {observed locator : Text}
    (h : validateWorkerBlock f block observed = .ok ()) (hlocator : JsonValue.get? block "locator" = some (.string locator))
    (hw : isWritable f (.object block) = true) : ∃ t, Rendering f container block t := by
  unfold validateWorkerBlock at h
  dsimp only at h
  split at h
  · rw [require_eq_ok, Bool.and_eq_true] at h
    obtain ⟨t, ht⟩ := isString_eq_true h.2
    exact ⟨t, .text t ht⟩
  · split at h
    · split at h
      · rename_i cells hcells
        simp only [bind_eq_ok, require_eq_ok] at h
        obtain ⟨_, hkeys, hscalar⟩ := h
        have htext := get?_eq_none "text" (keys_of_hasKeys hkeys) (by decide)
        exact ⟨_, .cells cells htext hcells (List.all_eq_true.mp hscalar)⟩
      · cases h
    · split at h
      · simp only [bind_eq_ok, require_eq_ok] at h
        obtain ⟨_, hkeys, hvalue⟩ := h
        have htext := get?_eq_none "text" (keys_of_hasKeys hkeys) (by decide)
        have hcells := get?_eq_none "cells" (keys_of_hasKeys hkeys) (by decide)
        cases hv : JsonValue.get? block "value" with
        | none =>
          rw [hv] at hvalue
          cases hvalue
        | some v =>
          rw [hv, Option.any_some, Bool.or_eq_true] at hvalue
          obtain ⟨field, hfield, rfl⟩ := exists_of_get? hv
          have hwritable : isWritable f field.2 = true := ((JsonValue.every_object _).mp hw).2 field hfield
          exact ⟨_, .value field.2 _ htext hcells hv hvalue (if_pos hwritable)⟩
      · split at h
        · simp only [bind_eq_ok, require_eq_ok, Bool.and_eq_true, Bool.or_eq_true, Option.isNone_iff_eq_none] at h
          obtain ⟨_, ⟨-, hkeys⟩, _, -, _, htext, -⟩ := h
          have hkeys := fun field hfield => List.contains_iff_mem.mp (List.all_eq_true.mp hkeys field hfield)
          obtain htext | htext := htext
          · have hcells := get?_eq_none "cells" hkeys (by decide)
            have hvalue := get?_eq_none "value" hkeys (by decide)
            exact ⟨locator, .locator locator htext hcells hvalue hlocator⟩
          · obtain ⟨t, ht⟩ := isString_eq_true htext
            exact ⟨t, .text t ht⟩
        · split at h
          · split at h
            · rw [require_eq_ok, Bool.and_eq_true, Bool.and_eq_true] at h
              have hkeys := keys_of_hasKeys h.1.1
              have htext := get?_eq_none "text" hkeys (by decide)
              have hcells := get?_eq_none "cells" hkeys (by decide)
              have hvalue := get?_eq_none "value" hkeys (by decide)
              exact ⟨locator, .locator locator htext hcells hvalue hlocator⟩
            · cases h
          · cases h

/-! ### Lengths -/

theorem encodable_str {v : JsonValue φ} (hscalar : isJsonScalar f v = true) (h : JsonValue.every encodableHere v = true) :
    Text.encodable (str f container v) = true := by
  cases v with
  | null => rfl
  | bool b => cases b <;> rfl
  | int n => exact encodable_writeInt n
  | float x => exact (f.floatText x hscalar).encodable
  | string s => exact h
  | array items => cases hscalar
  | object fields => cases hscalar

/-- What renders can be encoded, if what it is rendered from can. -/
theorem Rendering.encodable {block : Block φ} {t : Text} (h : Rendering f container block t)
    (hw : isWritable f (.object block) = true) (henc : JsonValue.every encodableHere (.object block) = true) :
    Text.encodable t = true := by
  have hfields := ((JsonValue.every_object _).mp henc).2
  cases h with
  | text t h =>
    obtain ⟨field, hfield, hv⟩ := exists_of_get? h
    have hall := hfields field hfield
    rwa [hv] at hall
  | cells cells htext hcells hscalar =>
    obtain ⟨field, hfield, hv⟩ := exists_of_get? hcells
    have hall := hfields field hfield
    rw [hv, JsonValue.every_array] at hall
    rw [cellsText, encodable_intercalate rfl, List.forall_mem_map]
    intro cell hcell
    have hcell' : Text.encodable (str f container cell) = true := encodable_str (hscalar cell hcell) (hall.2 cell hcell)
    cases cell with
    | null => rfl
    | _ => exact hcell'
  | value v t htext hcells hvalue hflat ht =>
    obtain ⟨field, hfield, rfl⟩ := exists_of_get? hvalue
    have hsorted : sortKeys field.2 = field.2 := hflat.elim (sortKeys_scalar f) sortKeys_empty
    have hwritable : isWritable f field.2 = true := ((JsonValue.every_object _).mp hw).2 field hfield
    rw [dumps, if_pos hwritable, hsorted, Option.some.injEq] at ht
    rw [← ht, encodable_write hwritable]
    exact hfields field hfield
  | locator t htext hcells hvalue hlocator =>
    obtain ⟨field, hfield, hv⟩ := exists_of_get? hlocator
    have hall := hfields field hfield
    rwa [hv] at hall

theorem utf8Length_append (s t : Text) : Text.utf8Length (s ++ t) = Text.utf8Length s + Text.utf8Length t := by
  rw [Text.utf8Length, List.map_append, List.sum_append]
  rfl

theorem utf8Length_joinParts_cons (part next : Text) (rest : List Text) : Text.utf8Length (joinParts (part :: next :: rest)) =
    Text.utf8Length part + 1 + Text.utf8Length (joinParts (next :: rest)) := by
  have hline : Text.utf8Length [newline] = 1 := by rfl
  rw [joinParts, List.intercalate_cons_cons, utf8Length_append, utf8Length_append, hline]
  rfl

/-- One part more, with the line break before it. -/
theorem utf8Length_joinParts (parts : List Text) (t : Text) : Text.utf8Length (joinParts (parts ++ [t])) =
    Text.utf8Length (joinParts parts) + Text.utf8Length t + if parts.isEmpty then 0 else 1 := by
  induction parts with
  | nil => simp [joinParts, Text.utf8Length]
  | cons part rest ih =>
    cases rest with
    | nil =>
      have hone := utf8Length_joinParts_cons part t []
      simp only [joinParts, List.intercalate_singleton] at hone
      simp only [joinParts, List.cons_append, List.nil_append, List.intercalate_singleton, List.isEmpty_cons,
        Bool.false_eq_true, if_false]
      omega
    | cons next rest =>
      have hone := utf8Length_joinParts_cons part next (rest ++ [t])
      have hone' := utf8Length_joinParts_cons part next rest
      rw [List.cons_append] at ih
      rw [List.cons_append, List.cons_append, hone, ih, hone']
      simp only [List.isEmpty_cons, Bool.false_eq_true, if_false]
      omega

/-- A text that goes on is no shorter. -/
theorem utf8Length_joinParts_le (parts rest : List Text) :
    Text.utf8Length (joinParts parts) ≤ Text.utf8Length (joinParts (parts ++ rest)) := by
  induction rest generalizing parts with
  | nil => rw [List.append_nil]
  | cons t rest ih =>
    have hone := utf8Length_joinParts parts t
    have hmore := ih (parts ++ [t])
    rw [List.append_assoc, List.singleton_append] at hmore
    omega

/-! ### The loop of the reader -/

/-- The running size is the length of the text so far. -/
def Measured (s : ReaderParts) : Prop := s.size = Text.utf8Length (joinParts s.parts)

theorem measured_addBlock {maximumBytes : Nat} {s s' : ReaderParts} {block : JsonValue φ} (hs : Measured s)
    (h : addBlock f container maximumBytes s block = .ok s') : Measured s' := by
  unfold addBlock at h
  split at h
  · simp only [bind_eq_ok, ofOption_eq_ok] at h
    obtain ⟨value, -, h⟩ := h
    split at h
    · cases h
      exact hs
    · rename_i value
      simp only [bind_eq_ok, ofOption_eq_ok, require_eq_ok] at h
      obtain ⟨size, hsize, _, -, h⟩ := h
      cases h
      have hlength : size = Text.utf8Length value := by
        unfold Text.utf8Length? at hsize
        split at hsize
        · exact (Option.some.inj hsize).symm
        · cases hsize
      rw [Measured, utf8Length_joinParts, ← hs, hlength]
  · cases h

/-- **The running size is exact**, whatever the blocks are. -/
theorem measured_foldlM {maximumBytes : Nat} {s s' : ReaderParts} {blocks : List (JsonValue φ)} (hs : Measured s)
    (h : blocks.foldlM (addBlock f container maximumBytes) s = .ok s') : Measured s' :=
  foldlM_invariant (I := fun _ => Measured) (fun _ _ _ _ _ hs h => measured_addBlock hs h) (n := 0) hs h

def overBudget : ReaderError := .budget "normalized document text exceeds the remaining decompressed byte budget"

/-- A block that renders, in a loop that has measured what it has. -/
theorem addBlock_eq {maximumBytes : Nat} {block : Block φ} {t : Text} {s : ReaderParts}
    (hvalue : readerValue f container block = some (some t)) (henc : Text.encodable t = true) (hs : Measured s) :
    addBlock f container maximumBytes s (.object block) =
      if Text.utf8Length (joinParts (s.parts ++ [t])) ≤ maximumBytes then
        .ok {parts := s.parts ++ [t], size := Text.utf8Length (joinParts (s.parts ++ [t]))}
      else .error overBudget := by
  have hsize : Text.utf8Length? t = some (Text.utf8Length t) := if_pos henc
  have hall := utf8Length_joinParts s.parts t
  rw [← hs] at hall
  rw [hall]
  simp only [addBlock, hvalue, hsize, ofOption, bind, Except.bind, pure, Except.pure]
  generalize s.size + Text.utf8Length t + (if s.parts.isEmpty = true then 0 else 1) = size
  by_cases hle : size ≤ maximumBytes
  · simp [hle, require]
  · simp [hle, require, overBudget]

/-- Blocks that render are read to the end if their text is within the bound, and not otherwise. -/
theorem foldlM_addBlock {maximumBytes : Nat} {blocks : List (Block φ)} {parts : List Text} {s : ReaderParts}
    (hparts : List.Forall₂ (fun block t => readerValue f container block = some (some t) ∧ Text.encodable t = true) blocks parts)
    (hs : Measured s) (hstart : s.size ≤ maximumBytes) :
    (blocks.map JsonValue.object).foldlM (addBlock f container maximumBytes) s =
      if Text.utf8Length (joinParts (s.parts ++ parts)) ≤ maximumBytes then
        .ok {parts := s.parts ++ parts, size := Text.utf8Length (joinParts (s.parts ++ parts))}
      else .error overBudget := by
  induction hparts generalizing s with
  | nil =>
    rw [List.append_nil, ← hs, if_pos hstart]
    rfl
  | @cons block t blocks parts hblock hparts ih =>
    have hall : s.parts ++ t :: parts = s.parts ++ [t] ++ parts := by simp
    have hmore := utf8Length_joinParts_le (s.parts ++ [t]) parts
    rw [List.map_cons, List.foldlM_cons, hall, addBlock_eq hblock.1 hblock.2 hs]
    by_cases hle : Text.utf8Length (joinParts (s.parts ++ [t])) ≤ maximumBytes
    · rw [if_pos hle]
      exact ih (s := ⟨s.parts ++ [t], _⟩) rfl hle
    · have hover : ¬ Text.utf8Length (joinParts (s.parts ++ [t] ++ parts)) ≤ maximumBytes := by omega
      rw [if_neg hle, if_neg hover]
      rfl

end

end Fetech.Parsers
