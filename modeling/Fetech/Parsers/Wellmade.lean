import Fetech.Lib.Lists
import Fetech.Parsers.Answers
import Fetech.Parsers.JsonLeaves

/-! What the worker's own parsers make.

Each makes blocks of its format, and no two blocks have one locator: lines and rows are counted, the
names of members differ, and a path in JSON or XML is read back from its locator step by step. -/
namespace Fetech.Parsers
open Lib Lib.Except Archive JsonText

variable {φ : Type} {f : Floats φ}

/-- A block at a locator of its family that is valid if it can be written. -/
structure WellmadeBlock (f : Floats φ) (observed family : String) (block : Block φ) : Prop where
  form : ∃ tail rest, block = blockAt (Text.ofString family ++ tail) rest ∧ ("locator" :: rest.map Prod.fst).Nodup ∧
    ∀ field ∈ rest, field.2.HasUniqueKeys
  valid : isWritable f (.object block) = true → validateWorkerBlock f block (Text.ofString observed) = .ok ()

theorem blockAt_eq (locator : Text) (rest : List (String × JsonValue φ)) :
    blockAt locator rest = named (("locator", .string locator) :: rest) := rfl

theorem any_ofString (names : List String) (observed : String) :
    (names.any fun name => decide (Text.ofString observed = Text.ofString name)) = names.contains observed := by
  rw [Bool.eq_iff_iff, List.any_eq_true, List.contains_iff_mem]
  constructor
  · rintro ⟨name, hname, heq⟩
    rwa [Text.ofString_inj (of_decide_eq_true heq)]
  · exact fun hmem => ⟨observed, hmem, decide_eq_true rfl⟩

/-! ### The block of each format -/

section
variable (locator : Text)

theorem validate_textBlock {observed : String} (h : observed = "txt" ∨ observed = "markdown") (t : Text) :
    validateWorkerBlock f (blockAt locator [("text", .string t)]) (Text.ofString observed) = .ok () := by
  simp only [validateWorkerBlock, any_ofString, blockAt_eq, hasKeys_named, get?_named]
  obtain rfl | rfl := h <;> rfl

theorem validate_rowBlock (cells : List Text) :
    validateWorkerBlock f (blockAt locator [("cells", .array (cells.map .string))]) (Text.ofString "csv") = .ok () := by
  have hscalar : (cells.map JsonValue.string).all (isJsonScalar f) = true := by
    rw [List.all_map]
    exact List.all_eq_true.mpr fun _ _ => rfl
  simp only [validateWorkerBlock, any_ofString, blockAt_eq, hasKeys_named, get?_named]
  show (require _ _ >>= fun _ => require ((cells.map JsonValue.string).all (isJsonScalar f)) _) = _
  rw [hscalar]
  rfl

theorem validate_jsonBlock {value : JsonValue φ} (h : (isJsonScalar f value || isEmptyContainer value) = true) :
    validateWorkerBlock f (blockAt locator [("value", value)]) (Text.ofString "json_file") = .ok () := by
  simp only [validateWorkerBlock, any_ofString, blockAt_eq, hasKeys_named, get?_named]
  show (require _ _ >>= fun _ => require (isJsonScalar f value || isEmptyContainer value) _) = _
  rw [h]
  rfl

end

/-- Blocks of one family at locators that differ are a document of it. -/
theorem wellmade_of_blocks (family : String) {observed : String} {parsed : Parsed φ}
    (hcontract : documentResultContracts.find? (fun entry => Text.ofString entry.1 = Text.ofString observed) =
      some (observed, ⟨parsed.parser, parsed.type, family⟩))
    (hlocators : parsed.locators = locators parsed.blocks) (hdistinct : (locators parsed.blocks).Nodup)
    (hblocks : ∀ block ∈ parsed.blocks, WellmadeBlock f observed family block) : Wellmade f observed parsed where
  contract := by
    refine ⟨family, hcontract, fun locator hlocator => ?_⟩
    rw [hlocators] at hlocator
    obtain ⟨block, hblock, rfl⟩ := List.mem_map.mp hlocator
    obtain ⟨tail, rest, rfl, -, -⟩ := (hblocks block hblock).form
    rw [locatorOf_blockAt]
    exact List.isPrefixOf_iff_prefix.mpr (List.prefix_append _ _)
  locators := hlocators
  distinct := hlocators ▸ hdistinct
  located block hblock := by
    obtain ⟨tail, rest, rfl, -, -⟩ := (hblocks block hblock).form
    rw [locatorOf_blockAt, blockAt_eq, get?_named]
    rfl
  unique block hblock := by
    obtain ⟨tail, rest, rfl, hkeys, hrest⟩ := (hblocks block hblock).form
    rw [blockAt_eq]
    exact hasUniqueKeys_named (by simpa using hkeys) (List.forall_mem_cons.mpr ⟨rfl, hrest⟩)
  valid block hblock := (hblocks block hblock).valid

/-! ### Lines and rows -/

theorem countedLocator_injective (kind : String) : Function.Injective (countedLocator kind) := by
  intro i k h
  have hdigits := congrArg natOf (List.append_cancel_left h)
  rw [natOf_writeNat, natOf_writeNat] at hdigits
  exact Nat.succ_injective hdigits

/-- Blocks that are counted have locators that differ. -/
theorem nodup_counted {α : Type} (kind : String) (rest : α → List (String × JsonValue φ)) (items : List α) :
    (locators (items.mapIdx fun index item => blockAt (countedLocator kind index) (rest item))).Nodup := by
  have hmap : locators (items.mapIdx fun index item => blockAt (countedLocator kind index) (rest item)) =
      (List.range items.length).map (countedLocator kind) := by
    apply List.ext_getElem
    · simp [locators]
    · intro i hi hi'
      simp [locators, locatorOf_blockAt]
  rw [hmap]
  exact List.nodup_range.map (countedLocator_injective kind)

theorem wellmade_text {capability : String} (hcapability : capability = "txt" ∨ capability = "markdown") {body : List UInt8}
    {limits : DocumentLimits} {parsed : Parsed φ} (h : parseText capability body limits = .ok parsed) :
    Wellmade f capability parsed ∧ parsed.blocks.length ≤ limits.maximumBlocks := by
  simp only [parseText, bind_eq_ok, require_eq_ok, decide_eq_true_eq] at h
  obtain ⟨_, hcount, hparsed⟩ := h
  cases hparsed
  refine ⟨wellmade_of_blocks "line:" ?_ rfl (nodup_counted _ _ _) fun block hblock => ?_, by simpa using hcount⟩
  · obtain rfl | rfl := hcapability <;> rfl
  · obtain ⟨index, hindex, rfl⟩ := List.mem_mapIdx.mp hblock
    exact ⟨⟨_, _, rfl, by simp, List.forall_mem_singleton.mpr rfl⟩, fun _ => validate_textBlock _ hcapability _⟩

theorem wellmade_csv (l : DocumentLibrary φ) {body : List UInt8} {limits : DocumentLimits} {parsed : Parsed φ}
    (h : parseCsv l body limits = .ok parsed) :
    Wellmade l.floats "csv" parsed ∧ parsed.blocks.length ≤ limits.maximumBlocks := by
  unfold parseCsv at h
  generalize l.csv (Utf8.decodeReplace (Utf8.withoutMark body)) = read at h
  obtain ⟨rows, stop⟩ := read
  simp only [bind_eq_ok, require_eq_ok, decide_eq_true_eq] at h
  obtain ⟨_, hcount, hparsed⟩ := h
  cases stop with
  | some err => cases hparsed
  | none =>
    cases hparsed
    refine ⟨wellmade_of_blocks "row:" rfl rfl (nodup_counted _ _ _) fun block hblock => ?_, by simpa using hcount⟩
    obtain ⟨index, hindex, rfl⟩ := List.mem_mapIdx.mp hblock
    exact ⟨⟨_, _, rfl, by simp, List.forall_mem_singleton.mpr (hasUniqueKeys_strings _)⟩, fun _ => validate_rowBlock _ _⟩

/-! ### Bytes and members -/

theorem isSha256Hex_sha256Text (l : DocumentLibrary φ) (bytes : List UInt8) : isSha256Hex (sha256Text l bytes) = true := by
  have hdigest := l.hash.isDigest_hexdigest bytes
  rw [Storage.isDigest, Bool.and_eq_true, beq_iff_eq] at hdigest
  rw [isSha256Hex, sha256Text, Bool.and_eq_true, decide_eq_true_eq]
  refine ⟨by rw [Text.ofString, List.length_map, hdigest.1], List.all_eq_true.mpr fun c hc => ?_⟩
  obtain ⟨ch, hch, rfl⟩ := List.mem_map.mp hc
  have hall : "0123456789abcdef".toList.all (fun ch => isDigit (CodePoint.ofChar ch) ||
      (0x61 ≤ (CodePoint.ofChar ch).val && (CodePoint.ofChar ch).val ≤ 0x66)) = true := by decide
  exact List.all_eq_true.mp hall ch (List.contains_iff_mem.mp (List.all_eq_true.mp hdigest.2 ch hch))

theorem wellmadeBlock_bytes (l : DocumentLibrary φ) {observed family : String}
    (h : observed = "dataset_file" ∨ observed = "zip_archive") (tail : Text) (bytes : List UInt8) :
    WellmadeBlock l.floats observed family (bytesBlock l (Text.ofString family ++ tail) bytes) where
  form := ⟨tail, _, rfl, by simp, by simp only [List.forall_mem_cons, List.not_mem_nil, false_implies, implies_true, and_true]; exact ⟨rfl, rfl⟩⟩
  valid _ := by
    have hsize : (0 : Int) ≤ bytes.length := Int.natCast_nonneg _
    simp only [validateWorkerBlock, any_ofString, bytesBlock, blockAt_eq, hasKeys_named, get?_named]
    obtain rfl | rfl := h
    · show require (true && decide ((0 : Int) ≤ bytes.length) && isSha256Hex (sha256Text l bytes)) _ = _
      rw [isSha256Hex_sha256Text, decide_eq_true hsize]
      rfl
    · show require (true && decide ((0 : Int) ≤ bytes.length) && isSha256Hex (sha256Text l bytes)) _ = _
      rw [isSha256Hex_sha256Text, decide_eq_true hsize]
      rfl

theorem wellmade_dataset (l : DocumentLibrary φ) (body : List UInt8) (limits : DocumentLimits) :
    Wellmade l.floats "dataset_file" (parseBinaryDataset l body) ∧
      (parseBinaryDataset l body).blocks.length ≤ limits.maximumBlocks := by
  refine ⟨wellmade_of_blocks "byte:" rfl rfl (List.nodup_singleton _) ?_, limits.positive.2.2.1⟩
  exact List.forall_mem_singleton.mpr (wellmadeBlock_bytes l (.inl rfl) (Text.ofString "0-" ++ writeNat body.length) body)

/-- The files of an archive, and what was read of them. -/
def IsMember (l : DocumentLibrary φ) (block : Block φ) (info : ZipEntry) : Prop :=
  ∃ content, info.content = .ok content ∧ block = bytesBlock l (Text.ofString "member:" ++ info.filename) content

theorem addZipBlock_eq_ok {l : DocumentLibrary φ} {s s' : List (Block φ) × Nat} {info : ZipEntry}
    (h : addZipBlock l s info = .ok s') :
    s'.1 = s.1 ∧ info.isDir = true ∨ ∃ block, s'.1 = s.1 ++ [block] ∧ info.isDir = false ∧ IsMember l block info := by
  unfold addZipBlock at h
  split at h
  · rename_i hdir
    cases h
    exact .inl ⟨rfl, hdir⟩
  · rename_i hfile
    simp only [zipMember, bind_eq_ok, require_eq_ok] at h
    obtain ⟨content, ⟨content', hcontent, _, -, _, -, heq⟩, h⟩ := h
    cases heq
    cases h
    exact .inr ⟨_, rfl, by simpa using hfile, content, hcontent, rfl⟩

/-- **The blocks of an archive are its files**, in order. -/
theorem foldlM_addZipBlock {l : DocumentLibrary φ} {infos : List ZipEntry} {s s' : List (Block φ) × Nat}
    (h : infos.foldlM (addZipBlock l) s = .ok s') :
    ∃ blocks, s'.1 = s.1 ++ blocks ∧ List.Forall₂ (IsMember l) blocks (infos.filter fun info => !info.isDir) := by
  induction infos generalizing s with
  | nil =>
    cases h
    exact ⟨[], (List.append_nil _).symm, .nil⟩
  | cons info infos ih =>
    rw [List.foldlM_cons, bind_eq_ok] at h
    obtain ⟨middle, hinfo, hrest⟩ := h
    obtain ⟨blocks, hblocks, hfiles⟩ := ih hrest
    obtain ⟨hsame, hdir⟩ | ⟨block, hblock, hfile, hmember⟩ := addZipBlock_eq_ok hinfo
    · refine ⟨blocks, hsame ▸ hblocks, ?_⟩
      rwa [List.filter_cons_of_neg (by simp [hdir])]
    · refine ⟨block :: blocks, ?_, ?_⟩
      · rw [hblocks, hblock, List.append_assoc, List.singleton_append]
      · rw [List.filter_cons_of_pos (by simp [hfile])]
        exact .cons hmember hfiles

theorem locators_members {l : DocumentLibrary φ} {blocks : List (Block φ)} {infos : List ZipEntry}
    (h : List.Forall₂ (IsMember l) blocks infos) :
    locators blocks = infos.map fun info => Text.ofString "member:" ++ info.filename := by
  induction h with
  | nil => rfl
  | @cons block info blocks infos hmember _ ih =>
    obtain ⟨content, -, rfl⟩ := hmember
    rw [locators] at ih
    rw [locators, List.map_cons, List.map_cons, ih, bytesBlock, locatorOf_blockAt]

theorem exists_member {l : DocumentLibrary φ} {blocks : List (Block φ)} {infos : List ZipEntry}
    (h : List.Forall₂ (IsMember l) blocks infos) : ∀ block ∈ blocks, ∃ info, IsMember l block info := by
  induction h with
  | nil => exact List.forall_mem_nil _
  | cons hmember _ ih => exact List.forall_mem_cons.mpr ⟨⟨_, hmember⟩, ih⟩

theorem wellmade_zip (l : DocumentLibrary φ) {body : List UInt8} {limits : DocumentLimits} {parsed : Parsed φ}
    (h : parseZip l body limits = .ok parsed) : Wellmade l.floats "zip_archive" parsed := by
  simp only [parseZip, bind_eq_ok] at h
  obtain ⟨infos, hinfos, s, hloop, hparsed⟩ := h
  cases hparsed
  obtain ⟨blocks, hblocks, hfiles⟩ := foldlM_addZipBlock hloop
  rw [List.nil_append] at hblocks
  have hnames : (infos.map ZipEntry.filename).Nodup := by
    simp only [validateZipContainer, bind_eq_ok, require_eq_ok, decide_eq_true_eq] at hinfos
    obtain ⟨_, -, infos', -, _, -, _, hnodup, hrest⟩ := hinfos
    obtain ⟨_, -, hrest⟩ := hrest
    cases hrest
    exact hnodup
  refine wellmade_of_blocks "member:" rfl rfl ?_ fun block hblock => ?_
  · show (locators s.1).Nodup
    rw [hblocks, locators_members hfiles]
    have hkept : ((infos.filter fun info => !info.isDir).map ZipEntry.filename).Nodup :=
      hnames.sublist (List.filter_sublist.map _)
    have hmap := hkept.map (f := fun name : Text => Text.ofString "member:" ++ name) fun _ _ heq => List.append_cancel_left heq
    rwa [List.map_map] at hmap
  · have hmem : block ∈ s.1 := hblock
    rw [hblocks] at hmem
    obtain ⟨info, content, -, rfl⟩ := exists_member hfiles block hmem
    exact wellmadeBlock_bytes l (.inr rfl) info.filename content

/-! ### JSON -/

/-- A leaf is a scalar or empty, and finite if it can be written. -/
theorem scalar_of_isLeaf {v : JsonValue φ} (h : JsonPointer.isLeaf v = true) (hw : isWritable f v = true) :
    (isJsonScalar f v || isEmptyContainer v) = true := by
  cases v with
  | array items =>
    cases items with
    | nil => rfl
    | cons v rest => cases h
  | object fields =>
    cases fields with
    | nil => rfl
    | cons field rest => cases h
  | float x =>
    have hfinite : f.isFinite x = true := hw
    rw [isJsonScalar, hfinite]
    rfl
  | _ => rfl

theorem hasUniqueKeys_of_isLeaf {v : JsonValue φ} (h : JsonPointer.isLeaf v = true) : v.HasUniqueKeys := by
  cases v with
  | array items =>
    cases items with
    | nil => rfl
    | cons v rest => cases h
  | object fields =>
    cases fields with
    | nil => rfl
    | cons field rest => cases h
  | _ => rfl

theorem wellmadeBlock_json (pointer : Text) {v : JsonValue φ} (h : JsonPointer.isLeaf v = true) :
    WellmadeBlock f "json_file" "json:" (jsonBlock pointer v) where
  form := ⟨_, _, rfl, by simp, List.forall_mem_singleton.mpr (hasUniqueKeys_of_isLeaf h)⟩
  valid hw := by
    have hfield : (Text.ofString "value", v) ∈ jsonBlock pointer v := List.mem_cons_of_mem _ List.mem_cons_self
    exact validate_jsonBlock _ (scalar_of_isLeaf h (((JsonValue.every_object _).mp hw).2 _ hfield))

/-- A visit gives one block at most. -/
theorem length_visitJson (frame : JsonFrame φ) : (visitJson frame).1.length ≤ 1 := by
  unfold visitJson
  split
  · dsimp only
    split <;> simp
  · dsimp only
    split <;> simp
  · simp

theorem length_jsonLoop {limits : DocumentLimits} {left : Nat} {stack : List (JsonFrame φ)} {blocks blocks' : List (Block φ)}
    (h : jsonLoop limits left stack blocks = .ok blocks') : blocks'.length ≤ blocks.length + left := by
  induction left generalizing stack blocks with
  | zero =>
    cases stack with
    | nil =>
      cases h
      omega
    | cons frame stack =>
      rw [jsonLoop] at h
      split at h <;> cases h
  | succ left ih =>
    cases stack with
    | nil =>
      cases h
      omega
    | cons frame stack =>
      rw [jsonLoop] at h
      split at h
      · cases h
      · have hrest := ih h
        have hvisit := length_visitJson frame
        rw [List.length_append] at hrest
        omega

theorem wellmade_json (interpreter : Interpreter φ) {body : List UInt8} {limits : DocumentLimits} {parsed : Parsed φ}
    (h : parseJson interpreter body limits = .ok parsed) :
    Wellmade interpreter.floats "json_file" parsed ∧ parsed.blocks.length ≤ limits.maximumBlocks := by
  simp only [parseJson, bind_eq_ok, ofOption_eq_ok] at h
  obtain ⟨text, -, document, hdocument, blocks, hblocks, hparsed⟩ := h
  cases hparsed
  have hunique := hasUniqueKeys_loads (fun _ _ => uniqueJsonObject_eq_some) hdocument
  have hleaves : blocks = (JsonPointer.leaves document).map (leafBlock []) := by
    have hall := jsonLoop_eq_ok hblocks
    rw [List.nil_append, List.flatMap_singleton] at hall
    exact hall
  have hdescribes : DescribesLeaves document ⟨"json", blocks, locators blocks, "stdlib-json"⟩ :=
    describesLeaves hunique hleaves rfl
  refine ⟨wellmade_of_blocks "json:" rfl rfl hdescribes.distinct fun block hblock => ?_, ?_⟩
  · have hmem : block ∈ blocks := hblock
    rw [hleaves] at hmem
    obtain ⟨leaf, hleaf, rfl⟩ := List.mem_map.mp hmem
    exact wellmadeBlock_json _ (JsonPointer.isLeaf_of_mem leaf hleaf)
  · have hlength := length_jsonLoop hblocks
    rwa [List.length_nil, Nat.zero_add] at hlength

end Fetech.Parsers
