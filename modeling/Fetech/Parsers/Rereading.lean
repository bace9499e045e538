import Fetech.Parsers.Reading

/-! What the reader makes of a document that the parent accepted and stored.

An accepted document holds only blocks of its format, so it is shallow enough to be read back, and
what is read back is the document with its keys sorted. Both renderers then see the same parts. -/
namespace Fetech.Parsers
open Lib Lib.Except Archive JsonText

variable {φ : Type} {f : Floats φ}

/-! ### What is accepted -/

/-- What the parent has checked of a document, with the locators of its blocks. -/
structure Accepted (f : Floats φ) (observed : Text) (document : Block φ) (located : List (Block φ × Text)) : Prop where
  keys : JsonValue.hasKeys document ["blocks", "type"] = true
  type : ∃ type, JsonValue.get? document "type" = some (.string type)
  blocks : JsonValue.get? document "blocks" = some (.array (located.map fun block => .object block.1))
  locator : ∀ block ∈ located, JsonValue.get? block.1 "locator" = some (.string block.2)
  valid : ∀ block ∈ located, validateWorkerBlock f block.1 observed = .ok ()

theorem blockLocator_eq_ok {v : JsonValue φ} {block : Block φ × Text} (h : blockLocator v = .ok block) :
    v = .object block.1 ∧ JsonValue.get? block.1 "locator" = some (.string block.2) := by
  unfold blockLocator at h
  split at h
  · split at h
    · rename_i hlocator
      cases h
      exact ⟨rfl, hlocator⟩
    · cases h
  · cases h

theorem located_eq {blocks : List (JsonValue φ)} {located : List (Block φ × Text)}
    (h : List.Forall₂ (fun v block => blockLocator v = .ok block) blocks located) :
    blocks = located.map (fun block => .object block.1) ∧
      ∀ block ∈ located, JsonValue.get? block.1 "locator" = some (.string block.2) := by
  induction h with
  | nil => exact ⟨rfl, nofun⟩
  | @cons v block blocks located hblock _ ih =>
    obtain ⟨hv, hlocator⟩ := blockLocator_eq_ok hblock
    rw [List.map_cons, ← ih.1, ← hv]
    exact ⟨rfl, List.forall_mem_cons.mpr ⟨hlocator, ih.2⟩⟩

/-- **What `_validate_worker_result` has checked** when it returns. -/
theorem accepted_of_validate {limits : DocumentLimits} {observed : Text} {bundle : Option Text} {response : Block φ}
    {result : DocumentParseResult φ} (h : validateWorkerResult f limits observed bundle (.object response) = .ok result) :
    JsonValue.get? response "document" = some (.object result.document) ∧
      (∃ bytes, encodeDocument f (.object result.document) = some bytes) ∧
      ∃ located, Accepted f observed result.document located ∧ result.locators = located.map Prod.snd := by
  unfold validateWorkerResult at h
  dsimp only at h
  split at h
  · rename_i document hdocument
    simp only [pure_bind, bind_eq_ok, require_eq_ok] at h
    obtain ⟨_, hkeys, h⟩ := h
    split at h
    · rename_i blocks hblocks
      simp only [bind_eq_ok, require_eq_ok] at h
      obtain ⟨_, -, located, hlocated, _, -, h⟩ := h
      have hlocated := located_eq (forall₂_mapM hlocated)
      split at h
      · rename_i observed' hobserved
        simp only [bind_eq_ok, require_eq_ok, ofOption_eq_ok, decide_eq_true_eq] at h
        obtain ⟨_, rfl, contract, -, _, -, provenance, -, _, htype, _, -, h⟩ := h
        have hchecked : ∃ u bytes, (located.map Prod.fst).forM (fun block => validateWorkerBlock f block observed') = .ok u ∧
            encodeDocument f (.object document) = some bytes ∧
            result.document = document ∧ result.locators = located.map Prod.snd := by
          split at h
          · simp only [bind_eq_ok, require_eq_ok, ofOption_eq_ok] at h
            obtain ⟨_, -, u, hvalid, bytes, hencoded, _, -, hresult⟩ := h
            cases hresult
            exact ⟨u, bytes, hvalid, hencoded, rfl, rfl⟩
          · simp only [bind_eq_ok, require_eq_ok, ofOption_eq_ok] at h
            obtain ⟨u, hvalid, bytes, hencoded, _, -, hresult⟩ := h
            cases hresult
            exact ⟨u, bytes, hvalid, hencoded, rfl, rfl⟩
        obtain ⟨u, bytes, hvalid, hencoded, rfl, hlocators⟩ := hchecked
        refine ⟨hdocument, ⟨bytes, hencoded⟩, located, ⟨hkeys, ?_, hlocated.1 ▸ hblocks, hlocated.2, ?_⟩, hlocators⟩
        · split at htype
          · rename_i hget
            exact ⟨_, hget⟩
          · cases htype
        · intro block hblock
          exact forM_eq_ok.mp hvalid block.1 (List.mem_map_of_mem hblock)
      · cases h
    · cases h
  · cases h

/-! ### An accepted document is shallow -/

theorem fitsIn_scalar {v : JsonValue φ} (h : isJsonScalar f v = true) (n : Nat) : v.fitsIn n = true := by
  cases v with
  | array items => cases h
  | object fields => cases h
  | _ => cases n <;> rfl

theorem fitsIn_string {v : Option (JsonValue φ)} {w : JsonValue φ} (h : isString v = true) (hv : v = some w) (n : Nat) :
    w.fitsIn n = true := by
  obtain ⟨t, ht⟩ := isString_eq_true h
  rw [ht] at hv
  cases hv
  cases n <;> rfl

theorem fitsIn_emptyContainer {v : JsonValue φ} (h : isEmptyContainer v = true) : v.fitsIn 1 = true := by
  cases v with
  | array items =>
    cases items with
    | nil => rfl
    | cons v rest => cases h
  | object fields =>
    cases fields with
    | nil => rfl
    | cons field rest => cases h
  | _ => rfl

/-- A dictionary fits if its values do under each key that it may have. -/
theorem fitsIn_fields {n : Nat} {block : Block φ} {keys : List String} (hunique : (block.map Prod.fst).Nodup)
    (hkeys : ∀ field ∈ block, field.1 ∈ keys.map Text.ofString)
    (hfits : ∀ key ∈ keys, ∀ v, JsonValue.get? block key = some v → v.fitsIn n = true) :
    (JsonValue.object block).fitsIn (n + 1) = true := by
  refine List.all_eq_true.mpr fun field hfield => ?_
  obtain ⟨key, hkey, heq⟩ := List.mem_map.mp (hkeys field hfield)
  refine hfits key hkey field.2 ((JsonValue.get?_eq_some_iff hunique).mpr ?_)
  rw [heq]
  exact hfield

/-- **A block that is accepted** holds scalars, or one list or dictionary of them. -/
theorem fitsIn_of_validate {block : Block φ} {observed locator : Text} (hunique : (block.map Prod.fst).Nodup)
    (h : validateWorkerBlock f block observed = .ok ()) (hlocator : JsonValue.get? block "locator" = some (.string locator)) :
    (JsonValue.object block).fitsIn 2 = true := by
  have hstring : ∀ v, JsonValue.get? block "locator" = some v → v.fitsIn 1 = true := by
    intro v hv
    rw [hlocator] at hv
    cases hv
    rfl
  unfold validateWorkerBlock at h
  dsimp only at h
  split at h
  · rw [require_eq_ok, Bool.and_eq_true] at h
    refine fitsIn_fields hunique (keys_of_hasKeys h.1) ?_
    simp only [List.forall_mem_cons, List.not_mem_nil, false_implies, implies_true, and_true]
    exact ⟨hstring, fun v hv => fitsIn_string h.2 hv 1⟩
  · split at h
    · split at h
      · rename_i cells hcells
        simp only [bind_eq_ok, require_eq_ok] at h
        obtain ⟨_, hkeys, hscalar⟩ := h
        refine fitsIn_fields hunique (keys_of_hasKeys hkeys) ?_
        simp only [List.forall_mem_cons, List.not_mem_nil, false_implies, implies_true, and_true]
        refine ⟨fun v hv => ?_, hstring⟩
        rw [hcells] at hv
        cases hv
        exact List.all_eq_true.mpr fun cell hcell => fitsIn_scalar (List.all_eq_true.mp hscalar cell hcell) 0
      · cases h
    · split at h
      · simp only [bind_eq_ok, require_eq_ok] at h
        obtain ⟨_, hkeys, hvalue⟩ := h
        refine fitsIn_fields hunique (keys_of_hasKeys hkeys) ?_
        simp only [List.forall_mem_cons, List.not_mem_nil, false_implies, implies_true, and_true]
        refine ⟨hstring, fun v hv => ?_⟩
        rw [hv, Option.any_some, Bool.or_eq_true] at hvalue
        exact hvalue.elim (fun hscalar => fitsIn_scalar hscalar 1) fitsIn_emptyContainer
      · split at h
        · simp only [bind_eq_ok, require_eq_ok, Bool.and_eq_true, Bool.or_eq_true, Option.isNone_iff_eq_none] at h
          obtain ⟨_, ⟨-, hkeys⟩, _, htag, _, htext, hattributes⟩ := h
          refine fitsIn_fields hunique (fun field hfield => List.contains_iff_mem.mp (List.all_eq_true.mp hkeys field hfield)) ?_
          simp only [List.forall_mem_cons, List.not_mem_nil, false_implies, implies_true, and_true]
          refine ⟨fun v hv => ?_, hstring, fun v hv => fitsIn_string htag hv 1, fun v hv => ?_⟩
          · rw [hv] at hattributes
            cases v with
            | object attributes =>
              rw [require_eq_ok, stringFields, mapM_isSome_iff] at hattributes
              refine List.all_eq_true.mpr fun field hfield => ?_
              have hvalue := hattributes field hfield
              obtain ⟨key, value⟩ := field
              cases value with
              | string s => rfl
              | _ => cases hvalue
            | _ => cases hattributes
          · refine htext.elim (fun hnone => ?_) fun hstr => fitsIn_string hstr hv 1
            rw [hnone] at hv
            cases hv
        · split at h
          · split at h
            · rename_i size digest hsize hdigest
              rw [require_eq_ok, Bool.and_eq_true, Bool.and_eq_true] at h
              refine fitsIn_fields hunique (keys_of_hasKeys h.1.1) ?_
              simp only [List.forall_mem_cons, List.not_mem_nil, false_implies, implies_true, and_true]
              refine ⟨hstring, fun v hv => ?_, fun v hv => ?_⟩
              · rw [hdigest] at hv
                cases hv
                rfl
              · rw [hsize] at hv
                cases hv
                rfl
            · cases h
          · cases h

/-! ### What is stored is read back -/

theorem looksUtf8_object (rest : List UInt8) : looksUtf8 (0x7b :: 0x22 :: rest) = true := by
  simp [looksUtf8, List.isPrefixOf]

theorem write_object {ascii : Bool} {fields : Block φ} (hne : fields ≠ []) :
    ∃ rest, write f ascii (.object fields) = openBrace :: quote :: rest := by
  obtain ⟨field, fields, rfl⟩ := List.exists_cons_of_ne_nil hne
  rw [write, writeFields_eq, List.map_cons]
  cases fields with
  | nil => exact ⟨_, rfl⟩
  | cons next rest => exact ⟨_, rfl⟩

/-- The bytes of an object that is not empty are taken for UTF-8. -/
theorem decodeJson_write {others : List UInt8 → Option Text} {ascii : Bool} {fields : Block φ} (hne : fields ≠ [])
    {bytes : List UInt8} (hbytes : Utf8.encode (write f ascii (.object fields)) = some bytes) :
    decodeJson others bytes = some (write f ascii (.object fields)) := by
  have hlooks : looksUtf8 bytes = true := by
    obtain ⟨rest, hrest⟩ := write_object (f := f) hne
    rw [hrest] at hbytes
    unfold Utf8.encode at hbytes
    split at hbytes
    · cases hbytes
      exact looksUtf8_object _
    · cases hbytes
  rw [decodeJson, if_pos hlooks]
  exact Utf8.decodeSurrogatePass_encode hbytes

theorem decodeJson_encode {others : List UInt8 → Option Text} {document : Block φ} (hne : document ≠ []) {text : Text}
    (htext : dumps f false (.object document) = some text) {bytes : List UInt8} (hbytes : Utf8.encode text = some bytes) :
    decodeJson others bytes = some text := by
  unfold dumps at htext
  split at htext
  · cases htext
    have hsorted : (sortFields document).insertionSort (fun field field' => field.1 ≤ field'.1) ≠ [] := by
      intro hnil
      have hlength := congrArg List.length hnil
      rw [List.length_insertionSort, sortFields_eq, List.length_map] at hlength
      exact hne (List.eq_nil_of_length_eq_zero hlength)
    exact decodeJson_write hsorted hbytes
  · cases htext

theorem foldl_readerHooks {pairs : Block φ} (fields : Block φ) (h : ((fields ++ pairs).map Prod.fst).Nodup) :
    pairs.foldl (fun fields pair =>
      if fields.any (·.1 = pair.1) then fields.map fun field => if field.1 = pair.1 then pair else field
      else fields ++ [pair]) fields = fields ++ pairs := by
  induction pairs generalizing fields with
  | nil => rw [List.append_nil, List.foldl_nil]
  | cons pair pairs ih =>
    have hall : fields ++ pair :: pairs = fields ++ [pair] ++ pairs := by simp
    have hnew : fields.any (fun field => field.1 = pair.1) = false := by
      rw [List.any_eq_false]
      intro field hfield heq
      rw [decide_eq_true_eq] at heq
      rw [List.map_append, List.nodup_append] at h
      exact h.2.2 field.1 (List.mem_map_of_mem hfield) pair.1 (List.mem_map_of_mem List.mem_cons_self) heq
    rw [List.foldl_cons, hnew, hall]
    exact ih _ (hall ▸ h)

/-- Different keys are kept as they are. -/
theorem readerHooks_object {constant : Text → Option φ} (fields : Block φ) (h : (fields.map Prod.fst).Nodup) :
    (readerHooks constant).object fields = some fields := congrArg some (foldl_readerHooks [] h)

/-! ### The two texts -/

section
variable {library : ReaderLibrary φ} {document : Block φ} {located : List (Block φ × Text)} {observed : Text}

/-- Every block of an accepted document renders, and what it renders as can be encoded. -/
theorem exists_renderings (h : Accepted f observed document located) (container : JsonValue φ → Text)
    (hw : isWritable f (.object document) = true) (henc : JsonValue.every encodableHere (.object document) = true) :
    ∃ parts, List.Forall₂ (fun block t => Rendering f container block.1 t ∧ Text.encodable t = true) located parts := by
  obtain ⟨field, hfield, hblocks⟩ := exists_of_get? h.blocks
  have hw := ((JsonValue.every_object _).mp hw).2 field hfield
  have henc := ((JsonValue.every_object _).mp henc).2 field hfield
  rw [hblocks, JsonValue.every_array, List.forall_mem_map] at hw henc
  have hone : ∀ block ∈ located, ∃ t, Rendering f container block.1 t ∧ Text.encodable t = true := by
    intro block hblock
    have hrendering : ∃ t, Rendering f container block.1 t :=
      rendering_of_validate (h.valid block hblock) (h.locator block hblock) (hw.2 block hblock)
    obtain ⟨t, ht⟩ := hrendering
    exact ⟨t, ht, ht.encodable (hw.2 block hblock) (henc.2 block hblock)⟩
  clear h hblocks hw henc
  induction located with
  | nil => exact ⟨[], .nil⟩
  | cons block located ih =>
    obtain ⟨t, ht⟩ := hone block List.mem_cons_self
    obtain ⟨parts, hparts⟩ := ih fun block hblock => hone block (List.mem_cons_of_mem _ hblock)
    exact ⟨t :: parts, .cons ht hparts⟩

/-- What the adapter assesses. -/
theorem documentText_eq (h : Accepted f observed document located) {container : JsonValue φ → Text} {parts : List Text}
    (hparts : List.Forall₂ (fun block t => Rendering f container block.1 t ∧ Text.encodable t = true) located parts) :
    documentText f container document = some (joinParts parts) := by
  have hitems : (located.map fun block => JsonValue.object block.1).mapM (documentItem f container) = some (parts.map some) := by
    clear h
    induction hparts with
    | nil => rfl
    | @cons block t located parts hblock _ ih =>
      rw [List.map_cons, List.mapM_cons, ih, documentItem, hblock.1.documentPart_eq]
      rfl
  have hid : (parts.map some).filterMap id = parts := by simp
  rw [documentText, h.blocks]
  simp only [hitems, Option.map_some, hid]

theorem fitsIn_document (h : Accepted f observed document located) (hunique : (JsonValue.object document).HasUniqueKeys) :
    (JsonValue.object document).fitsIn 4 = true := by
  obtain ⟨hkeys, hfields⟩ := (JsonValue.every_object _).mp hunique
  obtain ⟨field, hfield, hblocks⟩ := exists_of_get? h.blocks
  have hinner := hfields field hfield
  rw [hblocks, JsonValue.every_array, List.forall_mem_map] at hinner
  refine fitsIn_fields (of_decide_eq_true hkeys) (keys_of_hasKeys h.keys) ?_
  simp only [List.forall_mem_cons, List.not_mem_nil, false_implies, implies_true, and_true]
  refine ⟨fun v hv => ?_, fun v hv => ?_⟩
  · rw [h.blocks] at hv
    cases hv
    refine List.all_eq_true.mpr ?_
    rw [List.forall_mem_map]
    intro block hblock
    have hblockKeys := ((JsonValue.every_object _).mp (hinner.2 block hblock)).1
    exact fitsIn_of_validate (of_decide_eq_true hblockKeys) (h.valid block hblock) (h.locator block hblock)
  · obtain ⟨type, htype⟩ := h.type
    rw [htype] at hv
    cases hv
    rfl

/-- A block with its keys sorted. -/
def sortBlock (block : Block φ) : Block φ := (sortFields block).insertionSort fun field field' => field.1 ≤ field'.1

/-- The document that was stored is read back, with the keys of its blocks sorted. -/
theorem normalizedDocumentText_stored (h : Accepted library.floats observed document located)
    (hunique : (JsonValue.object document).HasUniqueKeys) {bytes : List UInt8}
    (hbytes : encodeDocument library.floats (.object document) = some bytes) (maximumBytes : Nat) :
    normalizedDocumentText library bytes maximumBytes = (do
      require (located.length ≤ maximumReaderBlocks) invalidArtifact
      let s ← ((located.map fun block => sortBlock block.1).map JsonValue.object).foldlM
        (addBlock library.floats library.container maximumBytes) {}
      return joinParts s.parts) := by
  obtain ⟨text, htext, hencode⟩ := Option.bind_eq_some_iff.mp hbytes
  obtain ⟨hkeys, -⟩ := (JsonValue.every_object _).mp hunique
  obtain ⟨field, hfield, -⟩ := exists_of_get? h.blocks
  have hne : document ≠ [] := List.ne_nil_of_mem hfield
  have hlimit := library.shallow text
  have hfit := JsonValue.fitsIn_mono (show 4 ≤ library.recursionLimit text by omega) (fitsIn_document h hunique)
  have hloads : loads library.floats (readerHooks library.constant) (library.recursionLimit text) text =
      some (sortKeys (.object document)) := loads_dumps readerHooks_object hfit hunique htext
  have hget := get?_sortKeys (of_decide_eq_true hkeys) "blocks"
  have hitems : sortItems (located.map fun block => JsonValue.object block.1) =
      (located.map fun block => sortBlock block.1).map JsonValue.object := by
    rw [sortItems_eq, List.map_map, List.map_map]
    rfl
  rw [h.blocks, Option.map_some, sortKeys, hitems] at hget
  simp only [normalizedDocumentText, decodeJson_encode hne htext hencode, ofOption, bind, Except.bind, hloads, sortKeys, hget,
    List.length_map]

/-- What the reader makes of blocks that render. -/
theorem normalizedDocumentText_eq (h : Accepted library.floats observed document located)
    (hunique : (JsonValue.object document).HasUniqueKeys) {parts : List Text}
    (hparts : List.Forall₂ (fun block t => Rendering library.floats library.container block.1 t ∧ Text.encodable t = true)
      located parts) {bytes : List UInt8} (hbytes : encodeDocument library.floats (.object document) = some bytes)
    (maximumBytes : Nat) : normalizedDocumentText library bytes maximumBytes =
      if maximumReaderBlocks < located.length then .error invalidArtifact
      else if Text.utf8Length (joinParts parts) ≤ maximumBytes then .ok (joinParts parts) else .error overBudget := by
  obtain ⟨-, hfields⟩ := (JsonValue.every_object _).mp hunique
  obtain ⟨field, hfield, hblocks⟩ := exists_of_get? h.blocks
  have hinner := hfields field hfield
  rw [hblocks, JsonValue.every_array, List.forall_mem_map] at hinner
  have hblockKeys : ∀ block ∈ located, (block.1.map Prod.fst).Nodup := fun block hblock =>
    of_decide_eq_true ((JsonValue.every_object _).mp (hinner.2 block hblock)).1
  have hvalues : List.Forall₂ (fun block t => readerValue library.floats library.container block = some (some t) ∧
      Text.encodable t = true) (located.map fun block => sortBlock block.1) parts := by
    rw [List.forall₂_map_left_iff]
    refine ((List.forall₂_and_left located parts).mpr ⟨hblockKeys, hparts⟩).imp fun block t hblock => ?_
    exact ⟨hblock.2.1.readerValue_eq hblock.1, hblock.2.2⟩
  have hloop : ((located.map fun block => sortBlock block.1).map JsonValue.object).foldlM
      (addBlock library.floats library.container maximumBytes) {} =
      if Text.utf8Length (joinParts parts) ≤ maximumBytes then
        .ok {parts := parts, size := Text.utf8Length (joinParts parts)}
      else .error overBudget := foldlM_addBlock hvalues rfl (Nat.zero_le _)
  rw [normalizedDocumentText_stored h hunique hbytes, hloop]
  by_cases hcount : maximumReaderBlocks < located.length
  · have hmany : ¬ located.length ≤ maximumReaderBlocks := by omega
    rw [if_pos hcount, decide_eq_false hmany]
    rfl
  · have hfew : located.length ≤ maximumReaderBlocks := by omega
    rw [if_neg hcount, decide_eq_true hfew]
    by_cases hle : Text.utf8Length (joinParts parts) ≤ maximumBytes
    · rw [if_pos hle, if_pos hle]
      rfl
    · rw [if_neg hle, if_neg hle]
      rfl

/-- **The reader reads what was assessed**: of an accepted document with no more blocks than it takes, it
gives the adapter's text if that is within the bound and raises otherwise. It refuses more blocks. What it
has counted is the length of its text so far. -/
theorem reader_reads_assessed (library : ReaderLibrary φ) (limits : DocumentLimits) (observed : Text) (bundle : Option Text)
    (response : Block φ) (result : DocumentParseResult φ) (hunique : (JsonValue.object response).HasUniqueKeys)
    (hresult : validateWorkerResult library.floats limits observed bundle (.object response) = .ok result) :
    (∃ bytes text, encodeDocument library.floats (.object result.document) = some bytes ∧
      documentText library.floats library.container result.document = some text ∧
      ∀ maximumBytes, normalizedDocumentText library bytes maximumBytes =
        if maximumReaderBlocks < result.locators.length then .error invalidArtifact
        else if Text.utf8Length text ≤ maximumBytes then .ok text else .error overBudget) ∧
    ∀ (maximumBytes : Nat) (blocks : List (JsonValue φ)) (s : ReaderParts),
      blocks.foldlM (addBlock library.floats library.container maximumBytes) {} = .ok s →
        s.size = Text.utf8Length (joinParts s.parts) := by
  obtain ⟨hdocument, ⟨bytes, hbytes⟩, located, haccepted, hlocators⟩ := accepted_of_validate hresult
  obtain ⟨field, hfield, hvalue⟩ := exists_of_get? hdocument
  have hdocumentKeys := ((JsonValue.every_object _).mp hunique).2 field hfield
  rw [hvalue] at hdocumentKeys
  obtain ⟨text, htext, hencode⟩ := Option.bind_eq_some_iff.mp hbytes
  have hw : isWritable library.floats (.object result.document) = true := by
    unfold dumps at htext
    split at htext
    · assumption
    · cases htext
  have henc : Text.encodable text = true := by
    unfold Utf8.encode at hencode
    split at hencode
    · assumption
    · cases hencode
  obtain ⟨parts, hparts⟩ := exists_renderings haccepted library.container hw ((encodable_dumps htext).mp henc)
  have hstart : Measured {} := rfl
  refine ⟨⟨bytes, joinParts parts, hbytes, documentText_eq haccepted hparts, ?_⟩, fun maximumBytes blocks s h => ?_⟩
  · rw [hlocators, List.length_map]
    exact normalizedDocumentText_eq haccepted hdocumentKeys hparts hbytes
  · exact measured_foldlM hstart h

end

/-! ### A table of two rows -/

/-- An interpreter without numbers that have a point. -/
def plainLibrary : ReaderLibrary Unit where
  floats := Floats.none
  recursionLimit _ := 1000
  shallow := shallow_thousand
  container _ := []
  constant _ := none
  otherEncodings _ := none

/-- Cells of every kind that this interpreter has: a text with a quote and a letter beyond ASCII, an empty
one, `null`, truth values and integers of both signs. -/
def tableRows : List (List (JsonValue Unit)) :=
  [[.string (Text.ofString "na\"me"), .string [0xe9], .null], [.int 120, .int (-7), .bool true, .bool false, .string []]]

def tableBlock (i : Nat) (cells : List (JsonValue Unit)) : Block Unit :=
  blockAt (Text.ofString "row:" ++ writeNat (i + 1)) [("cells", .array cells)]

def tableDocument : Block Unit :=
  [(Text.ofString "blocks", .array (tableRows.mapIdx fun i cells => .object (tableBlock i cells))),
    (Text.ofString "type", .string (Text.ofString "table"))]

def tableResponse : Block Unit :=
  [(Text.ofString "artifact_bundle_id", .null), (Text.ofString "document", .object tableDocument),
    (Text.ofString "fallback_reason", .null),
    (Text.ofString "locators", .array [.string (Text.ofString "row:1"), .string (Text.ofString "row:2")]),
    (Text.ofString "observed_capability", .string (Text.ofString "csv")),
    (Text.ofString "parser", .string (Text.ofString "csv")), (Text.ofString "parser_components", .object [])]

def tableResult : DocumentParseResult Unit where
  document := tableDocument
  locators := [Text.ofString "row:1", Text.ofString "row:2"]
  parser := "csv"
  observedCapability := Text.ofString "csv"
  parserComponents := []
  artifactBundleId := none
  fallbackReason := none

set_option maxRecDepth 4000 in
theorem reader_reads_assessed_table :
    (∃ bytes text, encodeDocument plainLibrary.floats (.object tableResult.document) = some bytes ∧
      documentText plainLibrary.floats plainLibrary.container tableResult.document = some text ∧
      ∀ maximumBytes, normalizedDocumentText plainLibrary bytes maximumBytes =
        if maximumReaderBlocks < tableResult.locators.length then .error invalidArtifact
        else if Text.utf8Length text ≤ maximumBytes then .ok text else .error overBudget) ∧
    ∀ (maximumBytes : Nat) (blocks : List (JsonValue Unit)) (s : ReaderParts),
      blocks.foldlM (addBlock plainLibrary.floats plainLibrary.container maximumBytes) {} = .ok s →
        s.size = Text.utf8Length (joinParts s.parts) :=
  reader_reads_assessed plainLibrary {} (Text.ofString "csv") none tableResponse tableResult (by rfl) (by rfl)

/-! ### A document of blank lines -/

def lineLocator (i : Nat) : Text := Text.ofString "line:" ++ writeNat (i + 1)

def lineBlock (i : Nat) : Block Unit := blockAt (lineLocator i) [("text", .string [])]

def linesDocument (n : Nat) : Block Unit :=
  [(Text.ofString "blocks", .array ((List.range n).map fun i => .object (lineBlock i))),
    (Text.ofString "type", .string (Text.ofString "text"))]

/-- What the worker answers for a body of blank lines. -/
def linesResponse (n : Nat) : Block Unit :=
  [(Text.ofString "artifact_bundle_id", .null), (Text.ofString "document", .object (linesDocument n)),
    (Text.ofString "fallback_reason", .null),
    (Text.ofString "locators", .array ((List.range n).map fun i => .string (lineLocator i))),
    (Text.ofString "observed_capability", .string (Text.ofString "txt")),
    (Text.ofString "parser", .string (Text.ofString "text")), (Text.ofString "parser_components", .object [])]

def linesResult (n : Nat) : DocumentParseResult Unit where
  document := linesDocument n
  locators := (List.range n).map lineLocator
  parser := "text"
  observedCapability := Text.ofString "txt"
  parserComponents := []
  artifactBundleId := none
  fallbackReason := none

theorem mapM_blockLocator (n : Nat) : ((List.range n).map fun i => JsonValue.object (lineBlock i)).mapM blockLocator =
    .ok ((List.range n).map fun i => (lineBlock i, lineLocator i)) := by
  induction List.range n with
  | nil => rfl
  | cons i rest ih =>
    rw [List.map_cons, List.mapM_cons, ih]
    rfl

theorem mapM_lineLocator (n : Nat) : stringItems (φ := Unit) (.array ((List.range n).map fun i => .string (lineLocator i))) =
    some ((List.range n).map lineLocator) := by
  rw [stringItems]
  induction List.range n with
  | nil => rfl
  | cons i rest ih =>
    rw [List.map_cons, List.mapM_cons, ih]
    rfl

theorem lineLocator_injective : Function.Injective lineLocator := by
  intro i k h
  have hdigits := congrArg natOf (List.append_cancel_left h)
  rw [natOf_writeNat, natOf_writeNat] at hdigits
  exact Nat.succ_injective hdigits

theorem encodable_lineLocator (i : Nat) : Text.encodable (lineLocator i) = true :=
  encodable_append.mpr ⟨by rfl, encodable_writeInt ((i + 1 : Nat) : Int)⟩

theorem every_lines {p : JsonValue Unit → Bool} (hblocks : ∀ items, p (.array items) = true)
    (hstring : ∀ s, Text.encodable s = true → p (.string s) = true)
    (hobject : ∀ fields, (fields.map Prod.fst).Nodup → (fields.all fun field => Text.encodable field.1) = true →
      p (.object fields) = true) (n : Nat) :
    JsonValue.every p (.object (linesDocument n)) = true := by
  refine (JsonValue.every_object _).mpr ⟨hobject _ (by simp only [linesDocument, List.map_cons, List.map_nil]; decide) (by rfl), ?_⟩
  rw [linesDocument, List.forall_mem_cons, List.forall_mem_singleton]
  refine ⟨(JsonValue.every_array _).mpr ⟨hblocks _, ?_⟩, hstring _ (by rfl)⟩
  rw [List.forall_mem_map]
  intro i _
  refine (JsonValue.every_object _).mpr ⟨hobject _ (by simp only [lineBlock, blockAt, List.map_cons, List.map_nil]; decide) (by rfl), ?_⟩
  rw [lineBlock, blockAt]
  simp only [List.map_cons, List.map_nil, List.forall_mem_cons, List.not_mem_nil, false_implies, implies_true, and_true]
  exact ⟨hstring _ (encodable_lineLocator i), hstring _ (by rfl)⟩

/-- The document can be stored, however long it is. -/
theorem exists_encodeDocument_lines (n : Nat) : ∃ bytes, encodeDocument Floats.none (.object (linesDocument n)) = some bytes := by
  have hw : isWritable Floats.none (.object (linesDocument n)) = true :=
    every_lines (fun _ => rfl) (fun _ _ => rfl) (fun _ _ _ => rfl) n
  have henc : JsonValue.every encodableHere (.object (linesDocument n)) = true :=
    every_lines (fun _ => rfl) (fun _ h => h) (fun _ _ h => h) n
  have htext : dumps Floats.none false (.object (linesDocument n)) = some _ := if_pos hw
  rw [encodeDocument, htext, Option.bind_some, Utf8.encode, if_pos ((encodable_dumps htext).mpr henc)]
  exact ⟨_, rfl⟩

theorem validate_lines (n : Nat) {limits : DocumentLimits} (hblocks : n ≤ limits.maximumBlocks) {bytes : List UInt8}
    (hbytes : encodeDocument Floats.none (.object (linesDocument n)) = some bytes)
    (hlength : bytes.length ≤ limits.maximumOutputBytes) :
    validateWorkerResult Floats.none limits (Text.ofString "txt") none (.object (linesResponse n)) = .ok (linesResult n) := by
  have hdocument : JsonValue.get? (linesResponse n) "document" = some (.object (linesDocument n)) := by rfl
  have hlocators : JsonValue.get? (linesResponse n) "locators" =
      some (.array ((List.range n).map fun i => .string (lineLocator i))) := by rfl
  have hkeys : JsonValue.hasKeys (linesDocument n) ["blocks", "type"] = true := by rfl
  have hget : JsonValue.get? (linesDocument n) "blocks" =
      some (.array ((List.range n).map fun i => .object (lineBlock i))) := by rfl
  have hsnd : ((List.range n).map fun i => (lineBlock i, lineLocator i)).map Prod.snd = (List.range n).map lineLocator := by
    rw [List.map_map]
    rfl
  have hnodup : ((List.range n).map lineLocator).Nodup := List.nodup_range.map lineLocator_injective
  have hprefix : ((List.range n).map lineLocator).all (Text.startsWith (Text.ofString "line:")) = true := by
    rw [List.all_eq_true, List.forall_mem_map]
    exact fun i _ => List.isPrefixOf_iff_prefix.mpr (List.prefix_append _ _)
  have hvalid : (((List.range n).map fun i => (lineBlock i, lineLocator i)).map Prod.fst).forM
      (fun block => validateWorkerBlock Floats.none block (Text.ofString "txt")) = .ok () := by
    rw [forM_eq_ok, List.map_map, List.forall_mem_map]
    exact fun i _ => rfl
  have hobserved : JsonValue.get? (linesResponse n) "observed_capability" = some (.string (Text.ofString "txt")) := by rfl
  have hparser : JsonValue.get? (linesResponse n) "parser" = some (.string (Text.ofString "text")) := by rfl
  have htype : JsonValue.get? (linesDocument n) "type" = some (.string (Text.ofString "text")) := by rfl
  have hcontract : (documentResultContracts.find? fun entry => decide (Text.ofString entry.1 = Text.ofString "txt")).map Prod.snd =
      some ⟨"text", "text", "line:"⟩ := by rfl
  have hprovenance : validateParserProvenance (some (.string (Text.ofString "text"))) (Text.ofString "txt")
      ((JsonValue.get? (linesResponse n) "parser_components").getD (.object []))
      (JsonValue.get? (linesResponse n) "artifact_bundle_id") (JsonValue.get? (linesResponse n) "fallback_reason") none =
      .ok ([], none, none) := by rfl
  have hpdf : isPdf (Text.ofString "txt") = false := by rfl
  simp only [validateWorkerResult, hdocument, hkeys, hget, bind, Except.bind, pure, Except.pure, require, if_true,
    List.length_map, List.length_range, hblocks, decide_true, mapM_blockLocator, hlocators, Option.bind_some, mapM_lineLocator,
    hsnd, hnodup, Bool.and_self, hobserved, hparser, htype, hcontract, ofOption, Bool.true_or, hprovenance, hprefix, hpdf,
    Bool.false_eq_true, if_false, Bool.false_and, hvalid, hbytes, hlength]
  rfl

theorem hasUniqueKeys_lines (n : Nat) : (JsonValue.object (linesResponse n)).HasUniqueKeys := by
  have hdocument : (JsonValue.object (linesDocument n)).HasUniqueKeys :=
    every_lines (fun _ => rfl) (fun _ _ => rfl) (fun _ hkeys _ => decide_eq_true hkeys) n
  have hkeys : ((linesResponse n).map Prod.fst).Nodup := by
    simp only [linesResponse, List.map_cons, List.map_nil]
    decide
  refine (JsonValue.every_object _).mpr ⟨decide_eq_true hkeys, ?_⟩
  simp only [linesResponse, List.forall_mem_cons, List.not_mem_nil, false_implies, implies_true, and_true]
  refine ⟨rfl, hdocument, rfl, ?_, rfl, rfl, rfl⟩
  refine (JsonValue.every_array _).mpr ⟨rfl, ?_⟩
  rw [List.forall_mem_map]
  exact fun i _ => rfl

/-- A document of a block more than the reader takes. -/
theorem many_blocks_not_read : ¬ ∀ (library : ReaderLibrary Unit) (limits : DocumentLimits) (observed : Text)
    (bundle : Option Text) (response : Block Unit) (result : DocumentParseResult Unit) (bytes : List UInt8) (text : Text),
    (JsonValue.object response).HasUniqueKeys →
    validateWorkerResult library.floats limits observed bundle (.object response) = .ok result →
    encodeDocument library.floats (.object result.document) = some bytes →
    documentText library.floats library.container result.document = some text →
    normalizedDocumentText library bytes (Text.utf8Length text) = .ok text := by
  intro h
  obtain ⟨bytes, hbytes⟩ := exists_encodeDocument_lines 10001
  let limits : DocumentLimits := {
    maximumBlocks := 10001, maximumOutputBytes := bytes.length + 1,
    positive := ⟨by decide, Nat.succ_pos _, by decide, by decide, by decide, by decide⟩ }
  have hunique := hasUniqueKeys_lines 10001
  have hresult : validateWorkerResult plainLibrary.floats limits (Text.ofString "txt") none (.object (linesResponse 10001)) =
    .ok (linesResult 10001) := validate_lines 10001 (Nat.le_refl _) hbytes (Nat.le_succ _)
  obtain ⟨⟨bytes', text, hbytes', htext, hread⟩, -⟩ := reader_reads_assessed plainLibrary limits _ _ _ _ hunique hresult
  have hok := h plainLibrary limits _ _ _ _ bytes' text hunique hresult hbytes' htext
  have hmany : maximumReaderBlocks < (linesResult 10001).locators.length := by
    rw [linesResult, List.length_map, List.length_range]
    decide
  rw [hread, if_pos hmany] at hok
  cases hok

end Fetech.Parsers
