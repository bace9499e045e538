import Fetech.Archive.Names
import Fetech.Parsers

/-! Two rules for the names of archive members (`fetech/adapters/documents.py`,
`fetech/adapters/archive.py`).

The document parser asks of a ZIP directory that its paths stay below the root and differ as
they are written. The archive adapter asks more: no backslash or control character, a bounded
length, a component at all, and that names differ on a file system without case. So the parser
publishes locators of members that the extractor would refuse. -/
namespace Fetech.Parsers
open Lib Lib.Except Archive

/-- What the archive adapter does with a name. -/
def archiveName (t : CaseTables) (seen : List Text) (name : Text) : Except ArchiveError (List Text) := do
  let normalized ← validateName name
  recordName t normalized seen

/-- Its name rules over all names of a directory. -/
def archiveNames (t : CaseTables) (names : List Text) : Except ArchiveError (List Text) := names.foldlM (archiveName t) []

/-- A name is storable but for its place below the root. -/
structure Storable (name : Text) : Prop where
  size : ∃ n ≤ maximumNameBytes, name.utf8Length? = some n
  noBackslash : backslash ∉ name
  noControl : ∀ c ∈ name, 32 ≤ c.val
  named : (PosixPath.parse name).tail ≠ []

/-- The names are storable each, and differ without regard to case once they are normalized. -/
structure StorableTogether (t : CaseTables) (names : List Text) : Prop where
  each : ∀ name ∈ names, Storable name
  differ : (names.map fun name => t.casefold (PosixPath.parse name).asPosix).Nodup

theorem validateMemberName_eq_ok {name : Text} {u : Unit} : validateMemberName name = .ok u ↔
    (PosixPath.parse name).root = .none ∧ parent ∉ (PosixPath.parse name).tail ∧ 0 ∉ name := by
  simp only [validateMemberName, require_eq_ok, Bool.and_eq_true, Bool.not_eq_true', isAbsolute_eq_false,
    List.contains_eq_mem, decide_eq_false_iff_not, and_assoc, parent]

/-- Of a name that stays below the root, the archive rule asks that it is storable. -/
theorem validateName_iff_storable {name normalized : Text} (h : validateMemberName name = .ok ()) :
    validateName name = .ok normalized ↔ Storable name ∧ normalized = (PosixPath.parse name).asPosix := by
  obtain ⟨hroot, hparent, hnul⟩ := validateMemberName_eq_ok.mp h
  rw [validateName_eq_ok]
  constructor
  · intro ⟨_, hclean, hinside, heq⟩
    exact ⟨⟨hclean.size, hclean.noBackslash, hclean.noControl, hinside.named⟩, heq⟩
  · intro ⟨hname, heq⟩
    refine ⟨?_, ⟨hname.size, hname.noBackslash, hnul, hname.noControl⟩, ⟨hroot, hparent, hname.named⟩, heq⟩
    intro hnil
    rw [hnil] at hname
    exact hname.named (by decide)

/-- The names of a directory that passed the first check stay below the root. -/
theorem validateMemberName_of_foldlM {r : ArchiveReader} {limits : DocumentLimits} {infos : List ZipEntry} {n m : Nat}
    (h : infos.foldlM (checkZipEntry r limits) n = .ok m) : ∀ info ∈ infos, validateMemberName info.filename = .ok () := by
  induction infos generalizing n with
  | nil => exact fun info hinfo => nomatch hinfo
  | cons info rest ih =>
    rw [List.foldlM_cons, bind_eq_ok] at h
    obtain ⟨k, hk, hrest⟩ := h
    simp only [checkZipEntry, bind_eq_ok] at hk
    obtain ⟨_, hname, -⟩ := hk
    exact List.forall_mem_cons.mpr ⟨hname, ih hrest⟩

/-- Beside names that were seen, names are accepted that are storable together and differ from those. -/
theorem foldlM_archiveName (t : CaseTables) {names : List Text} (h : ∀ name ∈ names, validateMemberName name = .ok ())
    (seen : List Text) : (∃ seen', names.foldlM (archiveName t) seen = .ok seen') ↔
      StorableTogether t names ∧ ∀ name ∈ names, t.casefold (PosixPath.parse name).asPosix ∉ seen := by
  induction names generalizing seen with
  | nil => exact ⟨fun _ => ⟨⟨by simp, List.nodup_nil⟩, by simp⟩, fun _ => ⟨seen, rfl⟩⟩
  | cons name rest ih =>
    obtain ⟨hname, hrest⟩ := List.forall_mem_cons.mp h
    have hstep : ∀ next, archiveName t seen name = .ok next ↔ Storable name ∧
        t.casefold (PosixPath.parse name).asPosix ∉ seen ∧ next = t.casefold (PosixPath.parse name).asPosix :: seen := by
      intro next
      simp only [archiveName, bind_eq_ok, validateName_iff_storable hname, recordName_eq_ok]
      constructor
      · intro hnamed
        obtain ⟨_, ⟨hstorable, heq⟩, hnew, hnext⟩ := hnamed
        subst heq
        exact ⟨hstorable, hnew, hnext⟩
      · intro hnamed
        obtain ⟨hstorable, hnew, hnext⟩ := hnamed
        exact ⟨_, ⟨hstorable, rfl⟩, hnew, hnext⟩
    constructor
    · intro hends
      obtain ⟨seen', hseen'⟩ := hends
      rw [List.foldlM_cons, bind_eq_ok] at hseen'
      obtain ⟨next, hnext, hfold⟩ := hseen'
      obtain ⟨hstorable, hnew, rfl⟩ := (hstep next).mp hnext
      obtain ⟨htogether, hothers⟩ := (ih hrest _).mp ⟨seen', hfold⟩
      refine ⟨⟨List.forall_mem_cons.mpr ⟨hstorable, htogether.each⟩, ?_⟩, List.forall_mem_cons.mpr ⟨hnew, fun other hother =>
        fun hmem => hothers other hother (List.mem_cons_of_mem _ hmem)⟩⟩
      rw [List.map_cons, List.nodup_cons]
      refine ⟨fun hmem => ?_, htogether.differ⟩
      obtain ⟨other, hother, hsame⟩ := List.mem_map.mp hmem
      exact hothers other hother (hsame ▸ List.mem_cons_self)
    · intro hstored
      obtain ⟨htogether, hnew⟩ := hstored
      obtain ⟨hstorable, heach⟩ := List.forall_mem_cons.mp htogether.each
      obtain ⟨hfirst, hothers⟩ := List.forall_mem_cons.mp hnew
      have hdiffer := htogether.differ
      rw [List.map_cons, List.nodup_cons] at hdiffer
      have hnext := (hstep _).mpr ⟨hstorable, hfirst, rfl⟩
      obtain ⟨seen', hfold⟩ := (ih hrest (t.casefold (PosixPath.parse name).asPosix :: seen)).mpr
        ⟨⟨heach, hdiffer.2⟩, fun other hother hmem => by
          obtain hsame | hmem := List.mem_cons.mp hmem
          · exact hdiffer.1 (hsame ▸ List.mem_map_of_mem hother)
          · exact hothers other hother hmem⟩
      exact ⟨seen', by rw [List.foldlM_cons, hnext]; exact hfold⟩

/-- **When the names of a ZIP document can be stored**: of the directories that the document
parser accepts, the archive adapter accepts the names of exactly those in which each is storable
and no two are the same without regard to case. -/
theorem archiveNames_iff (r : ArchiveReader) (limits : DocumentLimits) (body : List UInt8) (infos : List ZipEntry)
    (h : validateZipContainer r limits body = .ok infos) :
    (∃ seen, archiveNames r.tables (infos.map (·.filename)) = .ok seen) ↔
      StorableTogether r.tables (infos.map (·.filename)) := by
  simp only [validateZipContainer, bind_eq_ok] at h
  obtain ⟨_, -, infos', -, _, -, _, -, expanded, hloop, heq⟩ := h
  cases heq
  have hnames : ∀ name ∈ infos.map (·.filename), validateMemberName name = .ok () := by
    intro name hname
    obtain ⟨info, hinfo, rfl⟩ := List.mem_map.mp hname
    exact validateMemberName_of_foldlM hloop info hinfo
  rw [archiveNames, foldlM_archiveName r.tables hnames]
  exact ⟨fun h => h.1, fun h => ⟨h, by simp⟩⟩

def emptyFile (name : String) : ZipEntry :=
  {filename := Text.ofString name, externalAttr := 0x1800000, fileSize := 0, compressSize := 0, content := .ok []}

/-- The bytes of an ASCII name. -/
def asciiName (name : String) : List UInt8 := (Text.ofString name).map UInt8.ofNat

/-- The local header of an empty file, and its entry in the directory. -/
def localHeader (name : String) : List UInt8 :=
  [0x50, 0x4b, 3, 4, 20, 0, 0, 0, 0, 0, 0, 0, 0x21, 0, 0, 0, 0, 0, 0, 0, 0, 0, 0, 0, 0, 0,
    UInt8.ofNat (asciiName name).length, 0, 0, 0] ++ asciiName name

def directoryEntry (offset : Nat) (name : String) : List UInt8 :=
  [0x50, 0x4b, 1, 2, 20, 3, 20, 0, 0, 0, 0, 0, 0, 0, 0x21, 0, 0, 0, 0, 0, 0, 0, 0, 0, 0, 0, 0, 0,
    UInt8.ofNat (asciiName name).length, 0, 0, 0, 0, 0, 0, 0, 0, 0, 0, 0, 0x80, 1, UInt8.ofNat offset, 0, 0, 0] ++
    asciiName name

/-- A ZIP of a few empty files with short names. -/
def emptyFilesZip (names : List String) : List UInt8 :=
  let files := names.flatMap localHeader
  let directory := (names.mapIdx fun i => directoryEntry ((names.take i).flatMap localHeader).length).flatten
  let count := UInt8.ofNat names.length
  files ++ directory ++ [0x50, 0x4b, 5, 6, 0, 0, 0, 0, count, 0, count, 0, UInt8.ofNat directory.length, 0, 0, 0,
    UInt8.ofNat files.length, 0, 0, 0, 0, 0]

/-- What the libraries make of that ZIP. -/
def emptyFilesReader (names : List String) : ArchiveReader where
  tables := ⟨id, id⟩
  isZipfile _ := true
  zip _ := .ok (names.map emptyFile)
  tar _ := .error (.library "ReadError")
  quotient a b := a / b

theorem checkZipEntry_emptyFile (names : List String) {name : String} (h : validateMemberName (Text.ofString name) = .ok ()) :
    checkZipEntry (emptyFilesReader names) {} 0 (emptyFile name) = .ok 0 := by
  have hratio : (emptyFilesReader names).quotient 0 1 ≤ 100 := by
    show ((0 : Int) : ℚ) / _ ≤ 100
    rw [Int.cast_zero, zero_div]
    decide
  have hlink : (!(emptyFile name).isSymlink) = true := by
    show (!((0x1800000 >>> 16) &&& 0o170000 == 0o120000)) = true
    decide
  have hflag : (!(emptyFile name).isEncrypted) = true := by
    show (!(0 &&& 1 != 0)) = true
    decide
  refine bind_eq_ok.mpr ⟨(), h, bind_eq_ok.mpr ⟨(), require_eq_ok.mpr hlink,
    bind_eq_ok.mpr ⟨(), require_eq_ok.mpr hflag, ?_⟩⟩⟩
  split
  · rfl
  · exact bind_eq_ok.mpr ⟨(), require_eq_ok.mpr (decide_eq_true hratio), bind_eq_ok.mpr ⟨(), rfl, rfl⟩⟩

theorem validate_emptyFilesZip {names : List String} (hcount : names.length ≤ ({} : DocumentLimits).maximumArchiveMembers)
    (hdiffer : ((names.map emptyFile).map (·.filename)).Nodup)
    (hvalid : ∀ name ∈ names, validateMemberName (Text.ofString name) = .ok ()) :
    validateZipContainer (emptyFilesReader names) {} (emptyFilesZip names) = .ok (names.map emptyFile) := by
  have hloop : ∀ rest : List String, (∀ name ∈ rest, validateMemberName (Text.ofString name) = .ok ()) →
      (rest.map emptyFile).foldlM (checkZipEntry (emptyFilesReader names) {}) 0 = .ok 0 := by
    intro rest hrest
    induction rest with
    | nil => rfl
    | cons name rest ih =>
      obtain ⟨hname, hrest⟩ := List.forall_mem_cons.mp hrest
      rw [List.map_cons, List.foldlM_cons, checkZipEntry_emptyFile names hname]
      exact ih hrest
  refine bind_eq_ok.mpr ⟨(), rfl, bind_eq_ok.mpr ⟨_, rfl, bind_eq_ok.mpr ⟨(), require_eq_ok.mpr ?_, bind_eq_ok.mpr
    ⟨(), require_eq_ok.mpr (decide_eq_true hdiffer), bind_eq_ok.mpr ⟨0, hloop names hvalid, rfl⟩⟩⟩⟩⟩
  rw [List.length_map]
  exact decide_eq_true hcount

def twoFiles : List String := ["docs/a.txt", "docs/B.txt"]

theorem archiveNames_iff_plain :
    (∃ seen, archiveNames ⟨id, id⟩ ((twoFiles.map emptyFile).map (·.filename)) = .ok seen) ↔
      StorableTogether ⟨id, id⟩ ((twoFiles.map emptyFile).map (·.filename)) :=
  archiveNames_iff (emptyFilesReader twoFiles) {} (emptyFilesZip twoFiles) (twoFiles.map emptyFile)
    (validate_emptyFilesZip (by decide) (by decide)
      (List.forall_mem_cons.mpr ⟨by rfl, List.forall_mem_singleton.mpr (by rfl)⟩))

/-- A backslash is a locator's, and no member's. -/
theorem backslash_in_locator : ¬ ∀ (r : ArchiveReader) (limits : DocumentLimits) (body : List UInt8) (infos : List ZipEntry),
    validateZipContainer r limits body = .ok infos → ∃ seen, archiveNames r.tables (infos.map (·.filename)) = .ok seen := by
  intro h
  obtain ⟨seen, hseen⟩ := h (emptyFilesReader ["a\\b.txt"]) {} (emptyFilesZip ["a\\b.txt"]) [emptyFile "a\\b.txt"]
    (validate_emptyFilesZip (by decide) (by decide) (List.forall_mem_singleton.mpr (by rfl)))
  cases hseen

end Fetech.Parsers
