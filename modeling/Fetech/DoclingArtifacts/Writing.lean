import Fetech.Auth
import Fetech.DoclingArtifacts.Scanning

/-! What becomes of a manifest that was written (`write_inspects`).

The manifest lists files in the order of the walk, a directory's files before those below it; the
check asks for the order of their paths. So the manifest of a tree in which the two differ is
written and then refused, as is one of models of one repository, or one that is too long; every
other manifest is read back as it was meant, and is the bundle's. -/
namespace Fetech.DoclingArtifacts
open Lib Lib.Except JsonText

variable {φ : Type}

/-! ### A manifest as JSON -/

theorem sortKeys_file (file : ArtifactFile) : sortKeys (φ := φ) file.asDict = file.asDict := rfl

theorem sortKeys_model (model : ArtifactModel) : sortKeys (φ := φ) model.asDict = model.asDict := rfl

theorem sortKeys_map {α : Type} {f : α → JsonValue φ} (h : ∀ a, sortKeys (f a) = f a) (l : List α) :
    sortKeys (.array (l.map f)) = .array (l.map f) := by
  rw [sortKeys, sortItems_eq, List.map_map]
  congr 1
  exact List.map_congr_left fun a _ => h a

/-- The fields of a manifest stand in the order of their keys. -/
theorem sortKeys_manifest (files : List ArtifactFile) (models : List ArtifactModel) :
    sortKeys (φ := φ) (manifest files models) = manifest files models := by
  have hfiles := sortKeys_map (φ := φ) sortKeys_file files
  have hmodels := sortKeys_map (φ := φ) sortKeys_model models
  simp only [manifest, sortKeys, sortFields] at hfiles hmodels ⊢
  rw [hfiles, hmodels]
  rfl

/-- The fields of the identity of a tree without a manifest do as well. -/
theorem sortKeys_contentPayload (files : List ArtifactFile) :
    sortKeys (φ := φ) (contentPayload files) = contentPayload files := by
  have hfiles := sortKeys_map (φ := φ) sortKeys_file files
  simp only [contentPayload, sortKeys, sortFields] at hfiles ⊢
  rw [hfiles]
  rfl

theorem unique_map {α : Type} {f : α → JsonValue φ} (h : ∀ a, (f a).HasUniqueKeys) (l : List α) :
    (JsonValue.array (l.map f)).HasUniqueKeys :=
  (JsonValue.every_array _).mpr ⟨rfl, List.forall_mem_map.mpr fun a _ => h a⟩

theorem unique_file (file : ArtifactFile) : (file.asDict (φ := φ)).HasUniqueKeys := rfl

theorem unique_model (model : ArtifactModel) : (model.asDict (φ := φ)).HasUniqueKeys := rfl

theorem unique_manifest (files : List ArtifactFile) (models : List ArtifactModel) :
    (manifest (φ := φ) files models).HasUniqueKeys := by
  refine (JsonValue.every_object _).mpr ⟨rfl, ?_⟩
  simp only [List.forall_mem_cons]
  exact ⟨rfl, rfl, unique_map unique_file files, unique_map unique_model models, rfl, rfl, List.forall_mem_nil _⟩

theorem unique_contentPayload (files : List ArtifactFile) : (contentPayload (φ := φ) files).HasUniqueKeys := by
  refine (JsonValue.every_object _).mpr ⟨rfl, ?_⟩
  simp only [List.forall_mem_cons]
  exact ⟨unique_map unique_file files, rfl, rfl, List.forall_mem_nil _⟩

theorem fits_map {α : Type} {n : Nat} {f : α → JsonValue φ} (h : ∀ a, (f a).fitsIn n = true) (l : List α) :
    (JsonValue.array (l.map f)).fitsIn (n + 1) = true :=
  List.all_eq_true.mpr (List.forall_mem_map.mpr fun a _ => h a)

theorem fits_file (file : ArtifactFile) : (file.asDict (φ := φ)).fitsIn 1 = true := rfl

theorem fits_model (model : ArtifactModel) : (model.asDict (φ := φ)).fitsIn 1 = true := rfl

theorem fits_manifest (files : List ArtifactFile) (models : List ArtifactModel) :
    (manifest (φ := φ) files models).fitsIn 3 = true := by
  apply List.all_eq_true.mpr
  simp only [List.forall_mem_cons]
  exact ⟨rfl, rfl, fits_map fits_file files, fits_map fits_model models, rfl, rfl, List.forall_mem_nil _⟩

theorem fits_contentPayload (files : List ArtifactFile) : (contentPayload (φ := φ) files).fitsIn 3 = true := by
  apply List.all_eq_true.mpr
  simp only [List.forall_mem_cons]
  exact ⟨fits_map fits_file files, rfl, rfl, List.forall_mem_nil _⟩

variable {p : Platform φ}

theorem canonicalJson_eq_ok {v : JsonValue φ} {bytes : Bytes} :
    canonicalJson p v = .ok bytes ↔ ∃ text, dumps p.floats false v = some text ∧ Utf8.encode text = some bytes := by
  rw [canonicalJson, ofOption_eq_ok, Parsers.encodeDocument, Option.bind_eq_some_iff]

def lineFeed : CodePoint := 0x0a

/-- A line feed is encoded by itself. -/
theorem encode_line {text : Text} {bytes : Bytes} (h : Utf8.encode text = some bytes) :
    Utf8.encode (text ++ [lineFeed]) = some (bytes ++ [newline]) := by
  unfold Utf8.encode at h ⊢
  split at h
  · rename_i hencodable
    cases h
    rw [if_pos (encodable_append.mpr ⟨hencodable, rfl⟩), List.flatMap_append]
    rfl
  · cases h

/-- A manifest that was written is read as it was meant. -/
theorem load_manifest {files : List ArtifactFile} {models : List ArtifactModel} {bytes : Bytes}
    (h : canonicalJson p (manifest files models) = .ok bytes) :
    loadManifest p (bytes ++ [newline]) = .ok (manifest files models) := by
  obtain ⟨text, htext, hbytes⟩ := canonicalJson_eq_ok.mp h
  have hencode := encode_line hbytes
  have hstart : ∃ rest, text ++ [lineFeed] = openBrace :: quote :: rest := by
    have hwritten := htext
    rw [dumps, sortKeys_manifest] at hwritten
    split at hwritten
    · cases hwritten
      exact ⟨_, rfl⟩
    · cases hwritten
  have hlooks : Parsers.looksUtf8 (bytes ++ [newline]) = true := by
    obtain ⟨rest, hrest⟩ := hstart
    have hencode' := hencode
    rw [hrest, Utf8.encode] at hencode'
    split at hencode'
    · rw [← Option.some.inj hencode']
      exact Parsers.looksUtf8_object _
    · cases hencode'
  have hfit : (manifest (φ := φ) files models).fitsIn (p.recursionLimit (text ++ [lineFeed])) = true :=
    JsonValue.fitsIn_mono (Nat.le_trans (by decide) (p.shallow _)) (fits_manifest files models)
  have hspace : ∀ c ∈ [lineFeed], isSpace c = true := List.forall_mem_singleton.mpr rfl
  have hloads : loads p.floats (Parsers.readerHooks p.constant) (p.recursionLimit (text ++ [lineFeed])) (text ++ [lineFeed]) = _ :=
    loads_dumps_object Parsers.readerHooks_object hfit (unique_manifest files models) hspace htext
  rw [← manifest, sortKeys_manifest, ← toOption_loadsOrFault, toOption_eq_some] at hloads
  rw [loadManifest, Parsers.decodeJson, if_pos hlooks, Utf8.decodeSurrogatePass_encode hencode]
  exact mapError_eq_ok.mpr hloads

/-! ### The check of a manifest -/

/-- The order that the check asks for. -/
def PathOrdered (files : List ArtifactFile) : Prop := files.Pairwise fun a b => a.path ≤ b.path

instance (files : List ArtifactFile) : Decidable (PathOrdered files) :=
  inferInstanceAs (Decidable (files.Pairwise fun a b => a.path ≤ b.path))

theorem insertionSort_eq_iff {files : List ArtifactFile} :
    files.insertionSort (fun a b => a.path ≤ b.path) = files ↔ PathOrdered files := by
  constructor
  · intro h
    have : IsTrans ArtifactFile fun a b => a.path ≤ b.path := ⟨fun a b c => le_trans⟩
    have : Std.Total fun (a b : ArtifactFile) => a.path ≤ b.path := ⟨fun a b => le_total a.path b.path⟩
    rw [PathOrdered, ← h]
    exact List.pairwise_insertionSort _ _
  · intro h
    exact List.Pairwise.insertionSort_eq h

theorem byRepository_idem (models : List ArtifactModel) : byRepository (byRepository models) = byRepository models := by
  have : IsTrans ArtifactModel fun a b => a.repository ≤ b.repository := ⟨fun a b c => le_trans⟩
  have : Std.Total fun (a b : ArtifactModel) => a.repository ≤ b.repository := ⟨fun a b => le_total a.repository b.repository⟩
  exact List.Pairwise.insertionSort_eq (List.pairwise_insertionSort _ _)

/-- A loop that takes back what was made of each thing. -/
theorem mapM_map_ok {α β ε : Type} {f : β → Except ε α} {g : α → β} {l : List α} (h : ∀ a ∈ l, f (g a) = .ok a) :
    (l.map g).mapM f = .ok l := by
  induction l with
  | nil => rfl
  | cons a l ih =>
    obtain ⟨ha, hl⟩ := List.forall_mem_cons.mp h
    rw [List.map_cons, List.mapM_cons, ha, ih hl]
    rfl

theorem parseFile_asDict {file : ArtifactFile} (hpath : validateRelativePath p file.path = .ok ())
    (hsha : isSha256 file.sha256 = true) : parseFile p file.asDict = .ok file := by
  show (do
    require (0 ≤ (file.size : Int) && isSha256 file.sha256) invalidFile
    validateRelativePath p file.path
    return ({path := file.path, size := (file.size : Int).toNat, sha256 := file.sha256} : ArtifactFile)) = _
  rw [hpath, hsha, Int.toNat_natCast, decide_eq_true (Int.natCast_nonneg _)]
  rfl

theorem parseModel_asDict {paths : List Text} {model : ArtifactModel} (h : validateModel p paths model = .ok ()) :
    parseModel p paths model.asDict = .ok model := by
  show (do
    validateModel p paths model
    return model) = _
  rw [h]
  rfl

theorem paths_nodup {files : List ArtifactFile} (h : Listing p files) : (files.map ArtifactFile.path).Nodup := by
  have hportable := require_eq_ok.mp h.portable
  exact List.Nodup.of_map _ (of_decide_eq_true hportable)

def unsortedFiles : Raised := .bundle "Docling artifact manifest files must be sorted and non-empty"

def repeatedModels : Raised := .bundle "Docling artifact manifest models are invalid"

/-- What a check makes of a manifest of files that were scanned and models that were checked. -/
theorem validate_manifest {files : List ArtifactFile} {models : List ArtifactModel} (hlisting : Listing p files)
    (hsha : ∀ file ∈ files, isSha256 file.sha256 = true) (hfiles : files ≠ []) (hmodels : models ≠ [])
    (hvalid : ∀ model ∈ models, validateModel p (files.map ArtifactFile.path) model = .ok ())
    (hsorted : byRepository models = models) :
    validateManifest p (manifest files models) =
      if ¬ PathOrdered files then .error unsortedFiles
      else if ¬ (models.map ArtifactModel.repository).Nodup then .error repeatedModels
      else .ok (files, models) := by
  have hparsed : (files.map ArtifactFile.asDict).mapM (parseFile p) = .ok files :=
    mapM_map_ok fun file hfile => parseFile_asDict (hlisting.paths file hfile) (hsha file hfile)
  have hmodels' : (models.map ArtifactModel.asDict).mapM (parseModel p (files.map ArtifactFile.path)) = .ok models :=
    mapM_map_ok fun model hmodel => parseModel_asDict (hvalid model hmodel)
  show (do
    let files' : List ArtifactFile ← (files.map ArtifactFile.asDict).mapM (parseFile p)
    require (!files'.isEmpty && files'.insertionSort (fun (a b : ArtifactFile) => a.path ≤ b.path) == files') unsortedFiles
    let paths := files'.map ArtifactFile.path
    require paths.Nodup (.bundle "Docling artifact manifest contains duplicate paths")
    validateUniquePortablePaths p paths
    require (isCount p files'.length (.int files.length) && isCount p (totalBytes files') (.int (totalBytes files)))
      (.bundle "Docling artifact manifest totals are invalid")
    let models' : List ArtifactModel ← (models.map ArtifactModel.asDict).mapM (parseModel p paths)
    require (!models'.isEmpty && byRepository models' == models' && (models'.map ArtifactModel.repository).Nodup)
      repeatedModels
    return (files', models')) = _
  have hnodup : decide (files.map ArtifactFile.path).Nodup = true := decide_eq_true (paths_nodup hlisting)
  have hempty : files.isEmpty = false := by simpa using hfiles
  have hempty' : models.isEmpty = false := by simpa using hmodels
  simp only [hparsed, hmodels', hnodup, hempty, hempty', hsorted, hlisting.portable, isCount, bind, Except.bind, beq_self_eq_true,
    Bool.not_false, Bool.true_and, Bool.and_true, require, if_true]
  by_cases hordered : PathOrdered files
  · have hsort : (files.insertionSort (fun a b => a.path ≤ b.path) == files) = true :=
      beq_iff_eq.mpr (insertionSort_eq_iff.mpr hordered)
    simp only [hsort, hordered, not_true, if_true, if_false]
    by_cases hrepositories : (models.map ArtifactModel.repository).Nodup
    · simp [hrepositories]
      rfl
    · simp [hrepositories]
  · have hsort : (files.insertionSort (fun a b => a.path ≤ b.path) == files) = false :=
      beq_eq_false_iff_ne.mpr fun h => hordered (insertionSort_eq_iff.mp h)
    simp [hsort, hordered]

/-! ### Writing -/

theorem nodup_byRepository {models : List ArtifactModel} :
    ((byRepository models).map ArtifactModel.repository).Nodup ↔ (models.map ArtifactModel.repository).Nodup :=
  ((List.perm_insertionSort _ models).map _).nodup_iff

/-- What an inspection makes of a manifest that was written into a tree that was scanned. -/
theorem inspect_written {root : Node} {files : List ArtifactFile} (hscan : scanArtifactFiles p root true = .ok files)
    {models : List ArtifactModel} (hmodels : models ≠ []) (hsorted : byRepository models = models)
    (hvalid : ∀ model ∈ models, validateModel p (files.map ArtifactFile.path) model = .ok ())
    (hfree : root.child manifestName = none) {content : Bytes}
    (hcontent : canonicalJson p (manifest files models) = .ok content) :
    inspectBundle p (root.withFile manifestName (content ++ [newline])) true =
      if maximumManifestBytes < content.length + 1 then .error unsafeManifest
      else if ¬ PathOrdered files then .error unsortedFiles
      else if ¬ (models.map ArtifactModel.repository).Nodup then .error repeatedModels
      else .ok { bundleSha256 := p.hash.hexdigest content, files, models, totalBytes := totalBytes files
                 manifestPresent := true } := by
  obtain ⟨hfound, hlisting⟩ := scan_spec hscan
  have hsha : ∀ file ∈ files, isSha256 file.sha256 = true := by
    rw [hfound]
    exact List.forall_mem_map.mpr fun file _ => isSha256_digest file.2
  have hfiles : files ≠ [] := by
    intro hnil
    obtain ⟨model, rest, rfl⟩ := List.exists_cons_of_ne_nil hmodels
    have hmodel := hvalid model List.mem_cons_self
    simp only [validateModel, bind_eq_ok, require_eq_ok, hnil, List.map_nil] at hmodel
    obtain ⟨_, -, _, -, _, -, hevidence⟩ := hmodel
    exact absurd hevidence Bool.false_ne_true
  cases root with
  | directory device listable children =>
    have hrescan : scanArtifactFiles p ((Node.directory device listable children).withFile manifestName
        (content ++ [newline])) true = .ok files := (scan_withFile p hfree _).trans hscan
    have hraw : rawManifest ((Node.directory device listable children).withFile manifestName (content ++ [newline]))
        (.regular (content ++ [newline]) device 1) =
        if maximumManifestBytes < content.length + 1 then .error unsafeManifest else .ok (content ++ [newline]) := by
      rw [Node.withFile, rawManifest, List.length_append, List.length_singleton]
      by_cases hlong : maximumManifestBytes < content.length + 1
      · have hle : ¬ content.length + 1 ≤ maximumManifestBytes := Nat.not_le.mpr hlong
        simp [hlong, hle, require, bind, Except.bind]
      · have hle : content.length + 1 ≤ maximumManifestBytes := Nat.not_lt.mp hlong
        simp [hlong, hle, require, bind, Except.bind, pure, Except.pure]
    rw [inspectBundle, child_withFile _ hfree]
    dsimp only
    rw [hraw, hrescan]
    split
    · rfl
    · simp only [bind, Except.bind, load_manifest hcontent, hcontent, beq_self_eq_true, require, if_true,
        validate_manifest hlisting hsha hfiles hmodels hvalid hsorted]
      by_cases hordered : PathOrdered files
      · by_cases hrepositories : (models.map ArtifactModel.repository).Nodup
        · simp only [hordered, hrepositories, not_true, if_false, beq_self_eq_true, if_true, hcontent]
          rfl
        · simp only [hordered, hrepositories, not_true, not_false_eq_true, if_false, if_true]
      · simp only [hordered, not_false_eq_true, if_true]
  | regular content device links => cases hscan
  | link toDirectory => cases hscan
  | special => cases hscan

/-- **What becomes of a manifest that is written** for a tree that can be scanned and models that pass their
check. If it has no encoding, nothing is written. Otherwise it stands in the root, and is the manifest of the
bundle that comes back, or is refused: for its length, for the order in which the walk came by the files, or
for a repository that occurs twice. -/
theorem write_inspects (p : Platform φ) (root : Node) (models : List ArtifactModel) {files : List ArtifactFile}
    (hscan : scanArtifactFiles p root true = .ok files) (hmodels : models ≠ [])
    (hvalid : ∀ model ∈ models, validateModel p (files.map ArtifactFile.path) model = .ok ())
    (hfree : root.child manifestName = none) :
    (∀ e, canonicalJson p (manifest files (byRepository models)) = .error e →
      writeManifest p root models = (root, .error e)) ∧
    ∀ content, canonicalJson p (manifest files (byRepository models)) = .ok content →
      writeManifest p root models = (root.withFile manifestName (content ++ [newline]),
        if maximumManifestBytes < content.length + 1 then .error unsafeManifest
        else if ¬ PathOrdered files then .error unsortedFiles
        else if ¬ (models.map ArtifactModel.repository).Nodup then .error repeatedModels
        else .ok { bundleSha256 := p.hash.hexdigest content, files, models := byRepository models
                   totalBytes := totalBytes files, manifestPresent := true }) := by
  have hempty : models.isEmpty = false := by simpa using hmodels
  have hbuild : buildManifest p root models = .ok (manifest files (byRepository models)) := by
    rw [buildManifest, hempty, hscan]
    show (do
      models.forM (validateModel p (files.map ArtifactFile.path))
      return manifest files (byRepository models)) = _
    rw [forM_eq_ok (u := ()).mpr hvalid]
    rfl
  have hwrite : ∀ outcome, canonicalJson p (manifest files (byRepository models)) = outcome →
      (do canonicalJson p (← buildManifest p root models)) = outcome := by
    intro outcome houtcome
    rw [hbuild]
    exact houtcome
  constructor
  · intro e he
    rw [writeManifest, hfree, hwrite _ he]
    rfl
  · intro content hcontent
    have hmodels' : byRepository models ≠ [] := by
      rw [← List.length_pos_iff, byRepository, List.length_insertionSort]
      exact List.length_pos_iff.mpr hmodels
    have hvalid' : ∀ model ∈ byRepository models, validateModel p (files.map ArtifactFile.path) model = .ok () :=
      fun model hmodel => hvalid model ((List.mem_insertionSort _).mp hmodel)
    have hinspect := inspect_written hscan hmodels' (byRepository_idem models) hvalid' hfree hcontent
    simp only [nodup_byRepository] at hinspect
    rw [writeManifest, hfree, hwrite _ hcontent]
    exact Prod.ext rfl hinspect

/-- The digest of an empty file. -/
def emptyDigest : String := "e3b0c44298fc1c149afbf4c8996fb92427ae41e4649b934ca495991b7852b855"

theorem isDigest_emptyDigest : Storage.isDigest emptyDigest = true := by decide +kernel

def licenseText : Bytes := [65, 112, 97, 99, 104, 101, 32, 76, 105, 99, 101, 110, 115, 101, 32, 50, 46, 48, 10]

def layoutConfig : Bytes := [0x7b, 0x7d]

def layoutWeights : Bytes := [0, 255]

/-- The files of a model below the root, with the evidence of its licence in the root. -/
def modelFiles : List ArtifactFile :=
  [{ path := Text.ofString "LICENSE", size := 19
     sha256 := Text.ofString "4037bd3dec2b7a4ad2e609290f0be9ee3d64738190db987950c73ee38aa6b5d3" },
    { path := Text.ofString "layout/config.json", size := 2
      sha256 := Text.ofString "44136fa355b3678a1146ad16f7e8649e94fb4fc21fe77e8310c060f61caaff8a" },
    { path := Text.ofString "layout/model.bin", size := 2
      sha256 := Text.ofString "06eb7d6a69ee19e5fbdf749018d3d2abfa04bcbd1365db312eb86dc7169389b8" }]

def licensedModel : ArtifactModel where
  repository := Text.ofString "docling-project/docling-layout-heron"
  revision := Text.ofString "8f39ad3c0b4c58e9c2d2c84a38465abf757272d8"
  license := Text.ofString "apache-2.0"
  licenseEvidencePath := Text.ofString "LICENSE"
  sourceUrl := Text.ofString
    "https://huggingface.co/docling-project/docling-layout-heron/tree/8f39ad3c0b4c58e9c2d2c84a38465abf757272d8"

/-- The digest of the manifest of that model. -/
def modelDigest : String := "8004973138cdab3562bdd74fd569d3108f6ea4392b6e2c4b43ac990fc1cb3508"

/-- SHA-256 of the contents below, and of an empty file. -/
def knownDigests : List (Bytes × String) :=
  [(licenseText, "4037bd3dec2b7a4ad2e609290f0be9ee3d64738190db987950c73ee38aa6b5d3"),
    (layoutConfig, "44136fa355b3678a1146ad16f7e8649e94fb4fc21fe77e8310c060f61caaff8a"),
    (layoutWeights, "06eb7d6a69ee19e5fbdf749018d3d2abfa04bcbd1365db312eb86dc7169389b8"),
    ((Parsers.encodeDocument Parsers.plainLibrary.floats (manifest modelFiles [licensedModel])).getD [], modelDigest)]

def knownDigest (content : Bytes) : String :=
  ((knownDigests.find? fun entry => entry.1 == content).map Prod.snd).getD emptyDigest

theorem isDigest_knownDigest (content : Bytes) : Storage.isDigest (knownDigest content) = true := by
  have hall : ∀ sha256 ∈ knownDigests.map Prod.snd, Storage.isDigest sha256 = true := by
    simp only [knownDigests, List.map_cons, List.map_nil, List.forall_mem_cons]
    exact ⟨by decide +kernel, by decide +kernel, by decide +kernel, by decide +kernel, List.forall_mem_nil _⟩
  unfold knownDigest
  cases hfind : knownDigests.find? fun entry => entry.1 == content with
  | none => exact isDigest_emptyDigest
  | some entry => exact hall _ (List.mem_map_of_mem (List.mem_of_find?_eq_some hfind))

/-- Unicode of ASCII, and the digests that are known. -/
def plainPlatform : Platform Unit where
  toReaderLibrary := Parsers.plainLibrary
  floatEquals _ _ := false
  nfc s := s
  casefold s := s
  isOther c := c.isSurrogate || c.val < 32
  isOther_surrogate c h := by rw [h, Bool.true_or]
  urls := asciiCodecs.toTables
  hash := ⟨knownDigest, isDigest_knownDigest⟩

def modelTree : Node :=
  .directory 1 true [(Text.ofString "LICENSE", .regular licenseText 1 1), (Text.ofString "layout", .directory 1 true
    [(Text.ofString "config.json", .regular layoutConfig 1 1), (Text.ofString "model.bin", .regular layoutWeights 1 1)])]

theorem write_inspects_licensed : ∃ content,
    writeManifest plainPlatform modelTree [licensedModel] = (modelTree.withFile manifestName (content ++ [newline]),
      .ok { bundleSha256 := modelDigest, files := modelFiles, models := [licensedModel], totalBytes := 23
            manifestPresent := true }) := by
  have hscan : scanArtifactFiles plainPlatform modelTree true = .ok modelFiles := by rfl
  have hvalid : ∀ model ∈ [licensedModel], validateModel plainPlatform (modelFiles.map ArtifactFile.path) model = .ok () :=
    List.forall_mem_singleton.mpr (by decide +kernel)
  have hordered : PathOrdered modelFiles := by decide +kernel
  have honce : ([licensedModel].map ArtifactModel.repository).Nodup := List.nodup_singleton _
  have hwritten : (Parsers.encodeDocument plainPlatform.floats (manifest modelFiles [licensedModel])).any
      (fun content => content.length < maximumManifestBytes && knownDigest content == modelDigest) = true := by
    decide +kernel
  obtain ⟨content, hcontent, hknown⟩ := (Option.any_eq_true _ _).mp hwritten
  obtain ⟨hlength, hdigest⟩ := Bool.and_eq_true_iff.mp hknown
  have hwrite := (write_inspects plainPlatform modelTree [licensedModel] hscan (List.cons_ne_nil _ _) hvalid rfl).2 content
    (ofOption_eq_ok.mpr hcontent)
  rw [if_neg (Nat.not_lt.mpr (of_decide_eq_true hlength)), if_neg (not_not.mpr hordered),
    if_neg (not_not.mpr honce)] at hwrite
  exact ⟨content, beq_iff_eq.mp hdigest ▸ hwrite⟩

end Fetech.DoclingArtifacts
