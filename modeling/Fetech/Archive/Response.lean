import Fetech.Archive.Members
import Fetech.Lib.JsonText

/-! The size of the worker's answer (`fetech/archive_worker.py`, `ArchiveParseWorker.extract`).

The answer holds each member in base64 with its name escaped to ASCII, the bound on it counts
the contents alone. What the answer comes to can be read off the directory of the archive
(`length_workerText`), so it can be told which archives are within their own bound. A TAR may not get
so far: to open it the worker has to load a module, which its audit hook denies. -/
namespace Fetech.Archive
open Lib Lib.Except JsonText

/-- `_MAX_WORKER_OUTPUT_BYTES`. -/
def maximumWorkerOutput : Int := 256000000

/-- `maximum_output_bytes`, as `extract` gives it to `run_bounded`. -/
def outputBound (limits : ArchiveLimits) : Int := min maximumWorkerOutput (limits.maximumExpanded * 2 + 65536)

/-- `_MAX_ARCHIVE_INPUT_BYTES`. -/
def maximumArchiveInput : Int := 50000000

/-- What the worker writes for members, which is ASCII. -/
def workerText {φ : Type} (f : Floats φ) (members : List Member) : Text := write f true (workerResponse members)

/-- What the worker writes if anything is raised. -/
def failureText {φ : Type} (f : Floats φ) : Text :=
  write f true (.object [(Text.ofString "error", .string (Text.ofString "archive_parse_failed"))])

/-- A worker process: the libraries, and whether `gzip` has been loaded by the time the audit hook is set. -/
structure ArchiveWorker where
  reader : ArchiveReader
  gzipLoaded : Bool

namespace ArchiveWorker
variable (w : ArchiveWorker)

/-- The libraries under `_deny_runtime_side_effects`. In the mode `r:*` `tarfile.open` first tries gzip, and
to load the module of that name is an `open`. -/
def hooked : ArchiveReader :=
  {w.reader with tar := fun body => if w.gzipLoaded then w.reader.tar body else .error (.library "PermissionError")}

/-- `main`, from a payload on that is valid but for the length of the body: what is written and returned. -/
def main {φ : Type} (f : Floats φ) (limits : ArchiveLimits) (body : List UInt8) : Text × Nat :=
  let extracted : Except ArchiveError (List Member) := do
    require (body.length ≤ limits.maximumExpanded) (.value "archive worker body exceeds its hard byte limit")
    extractMembers w.hooked body limits.maximumMembers limits.maximumExpanded limits.maximumRatio
  match extracted with
  | .ok members => (workerText f members, 0)
  | .error _ => (failureText f, 1)

/-- The answer that `ArchiveParseWorker.extract` gets to a body, if it sends it. -/
def answer {φ : Type} (f : Floats φ) (limits : ArchiveLimits) (body : List UInt8) : Except ArchiveError Text := do
  require (body.length ≤ min maximumArchiveInput limits.maximumExpanded)
    (.execution "archive body exceeds the worker input limit")
  return (w.main f limits body).1

end ArchiveWorker

/-- The files that a ZIP directory lists, by their normal names. -/
def ZipEntry.files (infos : List ZipEntry) : List (Text × Nat) :=
  (infos.filter (!·.isDir)).map fun info => ((PosixPath.parse info.filename).asPosix, info.fileSize)

def TarEntry.files (members : List TarEntry) : List (Text × Nat) :=
  (members.filter (·.isFile)).map fun member => ((PosixPath.parse member.name).asPosix, member.size.toNat)

/-- The files that an archive lists. -/
def files (r : ArchiveReader) (body : List UInt8) : List (Text × Nat) :=
  if r.isZipfile body then (r.zip body).toOption.elim [] ZipEntry.files
  else (r.tar body).toOption.elim [] TarEntry.files

/-- What a file comes to in the answer. -/
def encodedFile (file : Text × Nat) : Nat := 21 + 4 * ((file.2 + 2) / 3) + (file.1.map escapedLength).sum

/-- What files come to in the answer, with what stands around and between them. -/
def encodedSize (files : List (Text × Nat)) : Nat := 14 + (files.map encodedFile).sum + (files.length - 1)

/-! ### The length of the answer -/

/-- The padding is the digit after the last. -/
theorem digit_min (n : Nat) : Base64.digit (min n 64) = Base64.digit n := by
  obtain hn | hn := Nat.le_total n 64
  · rw [Nat.min_eq_left hn]
  · have hlength : Base64.alphabet.length = 64 := by decide
    rw [Nat.min_eq_right hn, Base64.digit, Base64.digit, List.getD_eq_getElem?_getD, List.getD_eq_getElem?_getD,
      List.getElem?_eq_none (by omega), List.getElem?_eq_none (by omega)]

theorem mem_encode {bytes : List UInt8} {c : CodePoint} (h : c ∈ Base64.encode bytes) : ∃ n < 65, c = Base64.digit n := by
  have hdigit : ∀ n, ∃ m < 65, Base64.digit n = Base64.digit m := by
    intro n
    exact ⟨min n 64, by omega, (digit_min n).symm⟩
  have hpad : ∃ n < 65, Base64.pad = Base64.digit n := ⟨64, by decide, by decide⟩
  induction bytes using Base64.encode.induct with
  | case1 => cases h
  | case2 a =>
    simp only [Base64.encode, List.mem_cons, List.not_mem_nil, or_false] at h
    obtain rfl | rfl | rfl | rfl := h
    · exact hdigit _
    · exact hdigit _
    · exact hpad
    · exact hpad
  | case3 a b =>
    simp only [Base64.encode, List.mem_cons, List.not_mem_nil, or_false] at h
    obtain rfl | rfl | rfl | rfl := h
    · exact hdigit _
    · exact hdigit _
    · exact hdigit _
    · exact hpad
  | case4 a b c rest ih =>
    simp only [Base64.encode, List.mem_cons] at h
    obtain rfl | rfl | rfl | rfl | h := h
    · exact hdigit _
    · exact hdigit _
    · exact hdigit _
    · exact hdigit _
    · exact ih h

theorem escapedLength_digit : ∀ n < 65, escapedLength (Base64.digit n) = 1 := by decide +kernel

/-- Nothing in base64 is escaped. -/
theorem length_writeString_encode (bytes : List UInt8) :
    (writeString true (Base64.encode bytes)).length = 2 + 4 * ((bytes.length + 2) / 3) := by
  have hone : ∀ c ∈ Base64.encode bytes, escapedLength c = 1 := by
    intro c hc
    obtain ⟨n, hn, rfl⟩ := mem_encode hc
    exact escapedLength_digit n hn
  rw [length_writeString, List.map_congr_left hone, List.map_const', List.sum_replicate_nat, Nat.mul_one,
    Base64.length_encode]

variable {φ : Type} (f : Floats φ)

theorem length_write_workerMember (m : Member) :
    (write f true (workerMember m)).length = encodedFile (m.1, m.2.length) := by
  have hbody : (writeString true (Text.ofString "body")).length = 6 := by decide
  have hname : (writeString true (Text.ofString "name")).length = 6 := by decide
  simp only [workerMember, write, writeFields, List.intercalate_cons_cons, List.intercalate_singleton, List.length_append,
    List.length_cons, List.length_nil, hbody, hname, length_writeString_encode, length_writeString m.1, encodedFile]
  omega

theorem length_workerText (members : List Member) :
    (workerText f members).length = encodedSize (members.map fun m => (m.1, m.2.length)) := by
  have hmembers : (writeString true (Text.ofString "members")).length = 9 := by decide
  have hpieces : ((members.map workerMember).map (write f true)).map List.length =
      (members.map fun m => (m.1, m.2.length)).map encodedFile := by
    rw [List.map_map, List.map_map, List.map_map]
    exact List.map_congr_left fun m _ => length_write_workerMember f m
  simp only [workerText, workerResponse, write, writeFields, writeItems_eq, List.intercalate_singleton, List.length_append,
    List.length_cons, List.length_nil, hmembers, length_intercalate, hpieces, encodedSize, List.length_map]
  omega

/-! ### What comes out of an archive is what it lists -/

/-- The names and sizes of members. -/
def sizes (s : Extraction) : List (Text × Nat) := s.output.map fun m => (m.1, m.2.length)

variable {r : ArchiveReader} {limits : ArchiveLimits} {body : List UInt8}

theorem sizes_addZipMember {s s' : Extraction} {info : ZipEntry} (h : addZipMember r limits s info = .ok s') :
    sizes s' = sizes s ++ ZipEntry.files [info] := by
  simp only [addZipMember, bind_eq_ok, require_eq_ok] at h
  obtain ⟨name, hname, seen, -, _, -, h⟩ := h
  obtain ⟨-, -, -, rfl⟩ := validateName_eq_ok.mp hname
  split at h
  · rename_i hdir
    cases h
    simp [sizes, ZipEntry.files, hdir]
  · rename_i hdir
    simp only [bind_eq_ok, require_eq_ok, decide_eq_true_eq] at h
    obtain ⟨_, -, _, -, _, -, content, -, _, hcontent, _, -, h⟩ := h
    cases h
    simp [sizes, ZipEntry.files, hdir, hcontent]

theorem sizes_addTarMember {s s' : Extraction} {member : TarEntry} (h : addTarMember r body limits s member = .ok s') :
    sizes s' = sizes s ++ TarEntry.files [member] := by
  simp only [addTarMember, bind_eq_ok, require_eq_ok] at h
  obtain ⟨name, hname, seen, -, _, -, h⟩ := h
  obtain ⟨-, -, -, rfl⟩ := validateName_eq_ok.mp hname
  split at h
  · rename_i hfile
    cases h
    rw [Bool.not_eq_true'] at hfile
    simp [sizes, TarEntry.files, hfile]
  · rename_i hfile
    simp only [bind_eq_ok, require_eq_ok, decide_eq_true_eq] at h
    obtain ⟨_, -, _, -, _, -, _, -, content, -, _, hcontent, _, -, h⟩ := h
    cases h
    rw [Bool.not_eq_true', Bool.not_eq_false] at hfile
    have hsize : member.size.toNat = content.length := by omega
    simp [sizes, TarEntry.files, hfile, hsize]

/-- A loop that adds what each turn lists adds what they list together. -/
theorem sizes_foldlM {α : Type} {step : Extraction → α → Except ArchiveError Extraction} {listed : List α → List (Text × Nat)}
    (hnil : listed [] = []) (hcons : ∀ a rest, listed (a :: rest) = listed [a] ++ listed rest)
    (hstep : ∀ s s' a, step s a = .ok s' → sizes s' = sizes s ++ listed [a]) {items : List α} {s s' : Extraction}
    (h : items.foldlM step s = .ok s') : sizes s' = sizes s ++ listed items := by
  induction items generalizing s with
  | nil =>
    cases h
    rw [hnil, List.append_nil]
  | cons a rest ih =>
    rw [List.foldlM_cons, bind_eq_ok] at h
    obtain ⟨t, ht, hrest⟩ := h
    rw [ih hrest, hstep s t a ht, hcons a rest, List.append_assoc]

theorem ZipEntry.files_cons (info : ZipEntry) (rest : List ZipEntry) : files (info :: rest) = files [info] ++ files rest := by
  rw [← List.singleton_append, ZipEntry.files, List.filter_append, List.map_append]
  rfl

theorem TarEntry.files_cons (member : TarEntry) (rest : List TarEntry) :
    files (member :: rest) = files [member] ++ files rest := by
  rw [← List.singleton_append, TarEntry.files, List.filter_append, List.map_append]
  rfl

/-- **The members are the files that the archive lists**, by name and size. -/
theorem files_of_extractMembers {members : List Member}
    (h : extractMembers r body limits.maximumMembers limits.maximumExpanded limits.maximumRatio = .ok members) :
    (members.map fun m => (m.1, m.2.length)) = files r body := by
  simp only [extractMembers, limits.make_fields, bind_eq_ok, Except.ok.injEq, exists_eq_left', require_eq_ok] at h
  obtain ⟨_, -, h⟩ := h
  unfold files
  split at h
  · rename_i hzip
    simp only [extractZip, bind_eq_ok, require_eq_ok] at h
    obtain ⟨infos, hinfos, _, -, s, hs, h⟩ := h
    cases h
    rw [if_pos hzip, hinfos]
    exact sizes_foldlM rfl ZipEntry.files_cons (fun _ _ _ => sizes_addZipMember) hs
  · rename_i hzip
    have htar : extractTar r body limits = .ok members := by
      split at h
      · cases h
      · exact h
    simp only [extractTar, bind_eq_ok, require_eq_ok] at htar
    obtain ⟨entries, hentries, _, -, s, hs, htar⟩ := htar
    cases htar
    rw [if_neg hzip, hentries]
    exact sizes_foldlM rfl TarEntry.files_cons (fun _ _ _ => sizes_addTarMember) hs

/-! ### The answer and its bound -/

variable {w : ArchiveWorker}

/-- The worker opens what the libraries open, but for a TAR that it cannot. -/
theorem extractMembers_hooked (body : List UInt8) (maximumMembers maximumExpanded : Int) (maximumRatio : ℚ)
    (h : w.reader.isZipfile body = true ∨ w.gzipLoaded = true) :
    extractMembers w.hooked body maximumMembers maximumExpanded maximumRatio =
      extractMembers w.reader body maximumMembers maximumExpanded maximumRatio := by
  have hzip : extractZip w.hooked = extractZip w.reader := rfl
  have htar : w.gzipLoaded = true → w.hooked = w.reader := by
    intro hgzip
    simp only [ArchiveWorker.hooked, hgzip, if_true]
  obtain h | h := h
  · have hhooked : w.hooked.isZipfile body = true := h
    simp only [extractMembers, h, hhooked, if_true, hzip]
  · rw [htar h]

theorem extractMembers_denied {members : List Member} (hzip : w.reader.isZipfile body = false)
    (hgzip : w.gzipLoaded = false) :
    extractMembers w.hooked body limits.maximumMembers limits.maximumExpanded limits.maximumRatio ≠ .ok members := by
  intro h
  have hhooked : w.hooked.isZipfile body = false := hzip
  have htar : w.hooked.tar body = .error (.library "PermissionError") := by
    simp only [ArchiveWorker.hooked, hgzip, Bool.false_eq_true, if_false]
  simp only [extractMembers, limits.make_fields, bind_eq_ok, require_eq_ok, hhooked, Bool.false_eq_true, if_false,
    extractTar, htar] at h
  obtain ⟨_, _, _, _, h⟩ := h
  cases h

theorem main_extracted {members : List Member} (hlength : (body.length : Int) ≤ limits.maximumExpanded)
    (h : extractMembers w.hooked body limits.maximumMembers limits.maximumExpanded limits.maximumRatio = .ok members) :
    w.main f limits body = (workerText f members, 0) := by
  have hexpanded : require (decide ((body.length : Int) ≤ limits.maximumExpanded))
      (ArchiveError.value "archive worker body exceeds its hard byte limit") = .ok () :=
    require_eq_ok.mpr (decide_eq_true hlength)
  rw [ArchiveWorker.main, hexpanded, h]
  rfl

theorem main_failed {err : ArchiveError} (hlength : (body.length : Int) ≤ limits.maximumExpanded)
    (h : extractMembers w.hooked body limits.maximumMembers limits.maximumExpanded limits.maximumRatio = .error err) :
    w.main f limits body = (failureText f, 1) := by
  have hexpanded : require (decide ((body.length : Int) ≤ limits.maximumExpanded))
      (ArchiveError.value "archive worker body exceeds its hard byte limit") = .ok () :=
    require_eq_ok.mpr (decide_eq_true hlength)
  rw [ArchiveWorker.main, hexpanded, h]
  rfl

theorem answer_eq_ok {text : Text} : w.answer f limits body = .ok text ↔
    (body.length : Int) ≤ min maximumArchiveInput limits.maximumExpanded ∧ (w.main f limits body).1 = text := by
  rw [ArchiveWorker.answer, bind_eq_ok]
  simp only [require_eq_ok, decide_eq_true_eq]
  constructor
  · rintro ⟨_, hsent, htext⟩
    exact ⟨hsent, Except.ok.inj htext⟩
  · rintro ⟨hsent, htext⟩
    exact ⟨(), hsent, congrArg _ htext⟩

theorem failure_within_bound (limits : ArchiveLimits) : ((failureText f).length : Int) ≤ outputBound limits := by
  have hlength : (failureText f).length = 32 := by
    have herror : (writeString true (Text.ofString "error")).length = 7 := by decide
    have hmessage : (writeString true (Text.ofString "archive_parse_failed")).length = 22 := by decide
    simp only [failureText, write, writeFields, List.intercalate_singleton, List.length_append, List.length_cons,
      List.length_nil, herror, hmessage]
  have hexpanded := limits.expanded_pos
  rw [hlength, outputBound, maximumWorkerOutput]
  omega

/-- **Which archives are within their own bound**: the answer for an archive that is accepted is
within the bound on it exactly when, if it is sent and the worker can open it, the files that it lists
come to no more in base64, with their names escaped and what stands around them. -/
theorem answer_within_bound_iff {members : List Member}
    (h : extractMembers w.reader body limits.maximumMembers limits.maximumExpanded limits.maximumRatio = .ok members) :
    (∀ text, w.answer f limits body = .ok text → (text.length : Int) ≤ outputBound limits) ↔
      ((body.length : Int) ≤ min maximumArchiveInput limits.maximumExpanded →
        w.reader.isZipfile body = true ∨ w.gzipLoaded = true →
          (encodedSize (files w.reader body) : Int) ≤ outputBound limits) := by
  have hsize : ((workerText f members).length : Int) = encodedSize (files w.reader body) := by
    rw [length_workerText, files_of_extractMembers h]
  by_cases hsent : (body.length : Int) ≤ min maximumArchiveInput limits.maximumExpanded
  · have hlength : (body.length : Int) ≤ limits.maximumExpanded := by omega
    have hmain : (∀ text, w.answer f limits body = .ok text → (text.length : Int) ≤ outputBound limits) ↔
        ((w.main f limits body).1.length : Int) ≤ outputBound limits := by
      constructor
      · exact fun hall => hall _ ((answer_eq_ok f).mpr ⟨hsent, rfl⟩)
      · intro hbound text htext
        rw [← ((answer_eq_ok f).mp htext).2]
        exact hbound
    rw [hmain]
    by_cases hopens : w.reader.isZipfile body = true ∨ w.gzipLoaded = true
    · rw [← extractMembers_hooked _ _ _ _ hopens] at h
      rw [main_extracted f hlength h, hsize]
      exact ⟨fun hbound _ _ => hbound, fun hbound => hbound hsent hopens⟩
    · have hclosed := not_or.mp hopens
      rw [Bool.not_eq_true, Bool.not_eq_true] at hclosed
      cases hextract : extractMembers w.hooked body limits.maximumMembers limits.maximumExpanded limits.maximumRatio with
      | ok members => exact absurd hextract (extractMembers_denied hclosed.1 hclosed.2)
      | error err =>
        rw [main_failed f hlength hextract]
        exact ⟨fun _ _ hopens' => absurd hopens' hopens, fun _ => failure_within_bound f limits⟩
  · exact ⟨fun _ hsent' => absurd hsent' hsent, fun _ text htext => absurd ((answer_eq_ok f).mp htext).1 hsent⟩

/-! ### Nine long names -/

/-- A letter, and after it nothing but `DEL`. -/
def longName (n : Nat) (c : CodePoint) : Text := c :: List.replicate n 0x7f

/-- From `a` to `i`. -/
def nineLetters : List CodePoint := [0x61, 0x62, 0x63, 0x64, 0x65, 0x66, 0x67, 0x68, 0x69]

def littleEndian (size n : Nat) : List UInt8 := (List.range size).map fun i => UInt8.ofNat (n / 256 ^ i)

/-- The name of an entry in the archive, with its length before it and the other lengths and numbers between. -/
def nameField (n : Nat) (c : CodePoint) (between : List UInt8) : List UInt8 :=
  littleEndian 2 (n + 1) ++ between ++ (UInt8.ofNat c.val :: List.replicate n 0x7f)

/-- The header before the contents, of which there are none. -/
def localHeader (n : Nat) (c : CodePoint) : List UInt8 :=
  [0x50, 0x4b, 3, 4, 20, 0, 0, 0, 0, 0, 0, 0, 0x21, 0] ++ List.replicate 12 0 ++ nameField n c [0, 0]

def directoryHeader (n : Nat) (c : CodePoint) (offset : Nat) : List UInt8 :=
  [0x50, 0x4b, 1, 2, 20, 3, 20, 0, 0, 0, 0, 0, 0, 0, 0x21, 0] ++ List.replicate 12 0 ++
    nameField n c (List.replicate 12 0 ++ littleEndian 4 offset)

/-- The bytes of a ZIP of empty files by such names. -/
def longNames (n : Nat) : List UInt8 :=
  let size := n + 31
  let directory := nineLetters.zipIdx.flatMap fun c => directoryHeader n c.1 (c.2 * size)
  nineLetters.flatMap (localHeader n) ++ directory ++ [0x50, 0x4b, 5, 6, 0, 0, 0, 0] ++ littleEndian 2 9 ++ littleEndian 2 9 ++
    littleEndian 4 directory.length ++ littleEndian 4 (9 * size) ++ [0, 0]

def longEntry (n : Nat) (c : CodePoint) : ZipEntry where
  filename := longName n c
  fileSize := 0
  compressSize := 0
  content := .ok []

def longMembers (n : Nat) : List Member := nineLetters.map fun c => (longName n c, [])

/-- What the libraries make of such a ZIP, whatever the length of the names. -/
def longReader (n : Nat) : ArchiveReader where
  tables := ⟨id, id⟩
  isZipfile _ := true
  zip _ := .ok (nineLetters.map (longEntry n))
  tar _ := .error (.library "ReadError")
  quotient a b := a / b

def longWorker (n : Nat) : ArchiveWorker := ⟨longReader n, false⟩

def nineFiles : ArchiveLimits := ⟨9, 75000, 100, by decide, by decide, by decide⟩

theorem mem_longName {n : Nat} {c x : CodePoint} (h : x ∈ longName n c) : x = c ∨ x = 0x7f := by
  obtain h | h := List.mem_cons.mp h
  · exact .inl h
  · exact .inr (List.eq_of_mem_replicate h)

section
variable {n : Nat} {c : CodePoint} (hc : 0x61 ≤ c.val ∧ c.val < 0x7f)
include hc

theorem le_of_mem_longName {x : CodePoint} (h : x ∈ longName n c) : 0x61 ≤ x.val ∧ x.val < 0x80 := by
  obtain rfl | rfl := mem_longName h
  · omega
  · decide

theorem not_mem_longName {x : CodePoint} (hx : x.val < 0x61) : x ∉ longName n c := by
  intro h
  have hle := (le_of_mem_longName hc h).1
  omega

theorem isPart_longName : PosixPath.isPart (longName n c) = true := by
  have hdot : (longName n c != [dot]) = true := by
    rw [bne_iff_ne]
    intro h
    have hmem : dot ∈ longName n c := h ▸ List.mem_singleton_self dot
    exact not_mem_longName hc (by decide) hmem
  rw [PosixPath.isPart, hdot]
  rfl

theorem validateName_longName (hn : n < 4096) : validateName (longName n c) = .ok (longName n c) := by
  have hslash : slash ∉ longName n c := not_mem_longName hc (by decide)
  have hpart : PosixPath.isPart (longName n c) = true := isPart_longName hc
  obtain ⟨hroot, htail⟩ := PosixPath.parse_component hslash hpart
  have hsmall : ∀ x ∈ longName n c, 32 ≤ x.val ∧ CodePoint.isSurrogate x = false ∧ CodePoint.utf8Size x = 1 := by
    intro x hx
    have hle := le_of_mem_longName hc hx
    refine ⟨by omega, ?_, ?_⟩
    · rw [CodePoint.isSurrogate, Bool.and_eq_false_iff, decide_eq_false_iff_not]
      exact .inl (by omega)
    · rw [CodePoint.utf8Size, if_pos hle.2]
  have hencodable : Text.encodable (longName n c) = true := by
    rw [Text.encodable, List.all_eq_true]
    intro x hx
    rw [(hsmall x hx).2.1]
    rfl
  have hsize : Text.utf8Length (longName n c) = n + 1 := by
    rw [Text.utf8Length, List.map_congr_left fun x hx => (hsmall x hx).2.2, List.map_const', List.sum_replicate_nat,
      Nat.mul_one, longName, List.length_cons, List.length_replicate]
  refine validateName_eq_ok.mpr ⟨List.cons_ne_nil _ _, ⟨⟨n + 1, hn, ?_⟩, not_mem_longName hc (by decide),
    not_mem_longName hc (by decide), fun x hx => (hsmall x hx).1⟩, ⟨hroot, ?_, ?_⟩,
    (PosixPath.asPosix_component hslash hpart).symm⟩
  · rw [Text.utf8Length?, if_pos hencodable, hsize]
  · rw [htail, List.mem_singleton]
    intro heq
    have hmem : dot ∈ longName n c := heq ▸ List.mem_cons_self
    exact not_mem_longName hc (by decide) hmem
  · rw [htail]
    exact List.cons_ne_nil _ _

/-- A long name is one more entry without contents. -/
theorem addZipMember_longName (hn : n < 4096) {s : Extraction} (hnew : longName n c ∉ s.seen) (hsize : s.expanded = 0) :
    addZipMember (longReader n) nineFiles s (longEntry n c) =
      .ok {output := s.output ++ [(longName n c, [])], expanded := 0, seen := longName n c :: s.seen} := by
  have hslash : slash ∉ longName n c := not_mem_longName hc (by decide)
  have hdot : dot ∉ longName n c := not_mem_longName hc (by decide)
  have hseen : recordName (longReader n).tables (longName n c) s.seen = .ok (longName n c :: s.seen) :=
    recordName_eq_ok.mpr ⟨hnew, rfl⟩
  have hplain : isNested (longReader n).tables (longName n c) [] = false := by
    show (archiveSuffixes.contains (PosixPath.parse (longName n c)).suffix || hasArchiveSignature []) = false
    rw [PosixPath.suffix_component hslash (isPart_longName hc) hdot]
    decide
  have hfile : (longEntry n c).isDir = false := by
    rw [ZipEntry.isDir, beq_eq_false_iff_ne]
    exact fun hlast => hslash (List.mem_of_getLast? hlast)
  have hlink : (!(longEntry n c).isSymlink) = true := by
    show (!((0 : Nat) >>> 16 &&& 0o170000 == 0o120000)) = true
    decide
  have hopen : (!(longEntry n c).isEncrypted) = true := by
    show (!((0 : Nat) &&& 1 != 0)) = true
    decide
  have hratio : (longReader n).quotient 0 (max 1 0) ≤ nineFiles.maximumRatio := by
    show ((0 : Int) : ℚ) / _ ≤ 100
    rw [Int.cast_zero, zero_div]
    norm_num
  have hexpanded : (0 : Int) ≤ nineFiles.maximumExpanded := by decide
  refine bind_eq_ok.mpr ⟨_, validateName_longName hc hn, bind_eq_ok.mpr ⟨_, hseen, bind_eq_ok.mpr ⟨(), require_eq_ok.mpr hlink, ?_⟩⟩⟩
  simp only [hfile, hsize, Bool.false_eq_true, if_false, bind_eq_ok, require_eq_ok, rejectNested_eq_ok, decide_eq_true_eq]
  exact ⟨(), hopen, (), hratio, (), hexpanded, [], rfl, (), rfl, (), hplain, rfl⟩

end

/-- Each letter adds its name. -/
theorem foldlM_longEntry {n : Nat} (hn : n < 4096) {letters : List CodePoint}
    (hletters : ∀ c ∈ letters, 0x61 ≤ c.val ∧ c.val < 0x7f) (hnodup : letters.Nodup) {s : Extraction}
    (hnew : ∀ c ∈ letters, longName n c ∉ s.seen) (hsize : s.expanded = 0) :
    ∃ s', (letters.map (longEntry n)).foldlM (addZipMember (longReader n) nineFiles) s = .ok s' ∧
      s'.output = s.output ++ letters.map fun c => (longName n c, []) := by
  induction letters generalizing s with
  | nil => exact ⟨s, rfl, (List.append_nil _).symm⟩
  | cons c letters ih =>
    rw [List.forall_mem_cons] at hletters hnew
    obtain ⟨hfirst, hnodup⟩ := List.nodup_cons.mp hnodup
    have hadd := addZipMember_longName hletters.1 hn hnew.1 hsize
    have hlater : ∀ c' ∈ letters, longName n c' ∉ longName n c :: s.seen := by
      intro c' hc'
      rw [List.mem_cons, not_or]
      refine ⟨fun heq => hfirst ?_, hnew.2 c' hc'⟩
      rw [← (List.cons.inj heq).1]
      exact hc'
    obtain ⟨s', hs', houtput⟩ := ih hletters.2 hnodup
      (s := {output := s.output ++ [(longName n c, [])], expanded := 0, seen := longName n c :: s.seen}) hlater rfl
    refine ⟨s', ?_, ?_⟩
    · rw [List.map_cons, List.foldlM_cons, bind_eq_ok]
      exact ⟨_, hadd, hs'⟩
    · rw [houtput, List.append_assoc]
      rfl

theorem extract_longNames {n : Nat} (hn : n < 4096) {body : List UInt8} (hbody : body ≠ []) :
    extractMembers (longReader n) body nineFiles.maximumMembers nineFiles.maximumExpanded nineFiles.maximumRatio =
      .ok (longMembers n) := by
  have hletters : ∀ c ∈ nineLetters, 0x61 ≤ c.val ∧ c.val < 0x7f := by
    have hall : (nineLetters.all fun c => decide (0x61 ≤ c.val ∧ c.val < 0x7f)) = true := by decide
    exact fun c hc => of_decide_eq_true (List.all_eq_true.mp hall c hc)
  have hnodup : nineLetters.Nodup := by decide
  obtain ⟨s, hs, houtput⟩ := foldlM_longEntry hn hletters hnodup (s := {}) (fun _ _ => List.not_mem_nil) rfl
  have hzip : extractZip (longReader n) body nineFiles = .ok (longMembers n) := by
    have hopen : (longReader n).zip body = .ok (nineLetters.map (longEntry n)) := rfl
    have hcount : decide (((nineLetters.map (longEntry n)).length : Int) ≤ nineFiles.maximumMembers) = true := by
      rw [List.length_map]
      decide
    refine bind_eq_ok.mpr ⟨_, hopen, bind_eq_ok.mpr ⟨(), require_eq_ok.mpr hcount, bind_eq_ok.mpr ⟨s, hs, ?_⟩⟩⟩
    rw [houtput]
    rfl
  have hempty : (!body.isEmpty) = true := by simp [hbody]
  refine bind_eq_ok.mpr ⟨nineFiles, nineFiles.make_fields, bind_eq_ok.mpr ⟨(), require_eq_ok.mpr hempty, ?_⟩⟩
  have hisZip : (longReader n).isZipfile body = true := rfl
  rw [hisZip, if_pos rfl, hzip]

theorem length_littleEndian (size n : Nat) : (littleEndian size n).length = size := by
  rw [littleEndian, List.length_map, List.length_range]

theorem length_nameField (n : Nat) (c : CodePoint) (between : List UInt8) :
    (nameField n c between).length = n + 3 + between.length := by
  simp only [nameField, List.length_append, length_littleEndian, List.length_cons, List.length_replicate]
  omega

theorem length_longNames (n : Nat) : (longNames n).length = 9 * (n + 31) + 9 * (n + 47) + 22 := by
  have hheader : ∀ c ∈ nineLetters, (localHeader n c).length = n + 31 := by
    intro c _
    simp only [localHeader, List.length_append, length_nameField, List.length_cons, List.length_nil, List.length_replicate]
    omega
  have hdirectory : ∀ c ∈ nineLetters.zipIdx, (directoryHeader n c.1 (c.2 * (n + 31))).length = n + 47 := by
    intro c _
    simp only [directoryHeader, List.length_append, length_nameField, length_littleEndian, List.length_cons, List.length_nil,
      List.length_replicate]
    omega
  have hletters : nineLetters.length = 9 := rfl
  simp only [longNames, List.length_append, List.length_flatMap, List.map_congr_left hheader, List.map_congr_left hdirectory,
    List.map_const', List.sum_replicate_nat, List.length_zipIdx, hletters, length_littleEndian, List.length_cons, List.length_nil]

theorem longNames_ne_nil (n : Nat) : longNames n ≠ [] := by
  intro h
  have hlength := length_longNames n
  rw [h, List.length_nil] at hlength
  omega

theorem answer_within_bound_long_names :
    (∀ text, (longWorker 4095).answer Floats.none nineFiles (longNames 4095) = .ok text →
      (text.length : Int) ≤ outputBound nineFiles) ↔
      (((longNames 4095).length : Int) ≤ min maximumArchiveInput nineFiles.maximumExpanded →
        (longWorker 4095).reader.isZipfile (longNames 4095) = true ∨ (longWorker 4095).gzipLoaded = true →
          (encodedSize (files (longWorker 4095).reader (longNames 4095)) : Int) ≤ outputBound nineFiles) :=
  answer_within_bound_iff Floats.none (extract_longNames (by decide) (longNames_ne_nil 4095))

theorem encodedSize_longMembers (n : Nat) :
    encodedSize ((longMembers n).map fun m => (m.1, m.2.length)) = 220 + 54 * n := by
  have hdelete : escapedLength 0x7f = 6 := by decide
  have hname : ∀ c ∈ nineLetters, encodedFile (longName n c, 0) = 22 + 6 * n := by
    intro c hc
    have hall : (nineLetters.all fun c => decide (escapedLength c = 1)) = true := by decide
    have hone : escapedLength c = 1 := of_decide_eq_true (List.all_eq_true.mp hall c hc)
    rw [encodedFile, longName, List.map_cons, List.sum_cons, List.map_replicate, List.sum_replicate_nat, hone, hdelete]
    omega
  have hfiles : (((longMembers n).map fun m => (m.1, m.2.length)).map encodedFile) = nineLetters.map fun _ => 22 + 6 * n := by
    rw [longMembers, List.map_map, List.map_map]
    exact List.map_congr_left hname
  rw [encodedSize, hfiles]
  simp [longMembers, nineLetters]
  omega

/-- Nine empty files by long names come to more than the bound. -/
theorem long_names_exceed_bound : ¬ ∀ (w : ArchiveWorker) (limits : ArchiveLimits) (body : List UInt8) (members : List Member),
    extractMembers w.reader body limits.maximumMembers limits.maximumExpanded limits.maximumRatio = .ok members →
      ∀ text, w.answer Floats.none limits body = .ok text → (text.length : Int) ≤ outputBound limits := by
  intro h
  have hsent : ((longNames 4095).length : Int) ≤ min maximumArchiveInput nineFiles.maximumExpanded := by
    have hlength := length_longNames 4095
    have hinput : maximumArchiveInput = 50000000 := rfl
    have hexpanded : nineFiles.maximumExpanded = 75000 := rfl
    rw [hinput, hexpanded]
    omega
  have htext : (longWorker 4095).answer Floats.none nineFiles (longNames 4095) =
      .ok (workerText Floats.none (longMembers 4095)) := by
    have hopens : (longWorker 4095).reader.isZipfile (longNames 4095) = true ∨ (longWorker 4095).gzipLoaded = true := .inl rfl
    have hextract : extractMembers (longWorker 4095).reader (longNames 4095) nineFiles.maximumMembers
      nineFiles.maximumExpanded nineFiles.maximumRatio = .ok (longMembers 4095) :=
      extract_longNames (by decide) (longNames_ne_nil 4095)
    have hlength : ((longNames 4095).length : Int) ≤ nineFiles.maximumExpanded := hsent.trans (min_le_right _ _)
    rw [← extractMembers_hooked _ _ _ _ hopens] at hextract
    rw [answer_eq_ok, main_extracted Floats.none hlength hextract]
    exact ⟨hsent, rfl⟩
  have hbound := h (longWorker 4095) nineFiles (longNames 4095) (longMembers 4095)
    (extract_longNames (by decide) (longNames_ne_nil 4095)) _ htext
  rw [length_workerText, encodedSize_longMembers] at hbound
  exact absurd hbound (by decide)

end Fetech.Archive
