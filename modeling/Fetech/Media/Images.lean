import Fetech.Media.Exif

/-! The dimensions of images (`fetech/adapters/media.py`, `_image_metadata`). -/
namespace Fetech.Media
open Lib Lib.Bytes Lib.Except

/-! ### PNG -/

/-- A step of the CRC-32 of zlib, for a byte. -/
def crcByte (crc : UInt32) (b : UInt8) : UInt32 :=
  (List.range 8).foldl (fun crc _ => if crc &&& 1 = 1 then (crc >>> 1) ^^^ 0xedb88320 else crc >>> 1) (crc ^^^ b.toUInt32)

/-- `zlib.crc32`. -/
def crc32 (bytes : List UInt8) : UInt32 := bytes.foldl crcByte 0xffffffff ^^^ 0xffffffff

/-- `_MAX_MEDIA_INPUT_BYTES`. -/
def maximumMediaInputBytes : Nat := 64000000

/-- The variables of `_validate_png`. -/
structure PngScan where
  position : Nat := 8
  chunkIndex : Nat := 0
  sawIdat : Bool := false
  sawIend : Bool := false

def ihdr : List UInt8 := [0x49, 0x48, 0x44, 0x52]
def idat : List UInt8 := [0x49, 0x44, 0x41, 0x54]
def iend : List UInt8 := [0x49, 0x45, 0x4e, 0x44]

/-- One turn of its loop. -/
def pngTurn (body : List UInt8) : Program PngScan MediaError Bool := do
  let s ← Program.get
  if s.position + 12 ≤ body.length then do
    let length ← .ofExcept (number .big body s.position (s.position + 4))
    let chunkType ← .ofExcept (slice body (s.position + 4) (s.position + 8))
    let fin := s.position + 12 + length
    Program.check (length ≤ maximumMediaInputBytes && fin ≤ body.length) (.execution "PNG chunk is truncated or oversized")
    let chunkData ← .ofExcept (slice body (s.position + 8) (s.position + 8 + length))
    let expectedCrc ← .ofExcept (number .big body (s.position + 8 + length) fin)
    Program.check ((crc32 (chunkType ++ chunkData)).toNat = expectedCrc) (.execution "PNG chunk checksum is invalid")
    Program.check (!(s.chunkIndex = 0 && (chunkType ≠ ihdr || length ≠ 13))) (.execution "PNG IHDR is missing or malformed")
    Program.when (chunkType = idat) (Program.modify fun s => {s with sawIdat := true})
    if chunkType = iend then do
      Program.check (length = 0 && fin = body.length) (.execution "PNG IEND is malformed")
      Program.modify fun s => {s with sawIend := true}
      return false
    else do
      Program.modify fun s => {s with position := fin, chunkIndex := s.chunkIndex + 1}
      return true
  else return false

/-- `_validate_png`. -/
def validatePng (body : List UInt8) : Except MediaError Unit := do
  let s ← Program.exec (Program.iterate (fun s => body.length - s.position) .endless (pngTurn body)) {}
  require (s.sawIdat && s.sawIend) (.execution "PNG image data or end marker is missing")

/-! ### JPEG -/

/-- The markers that start a frame. -/
def startOfFrame : List UInt8 := [0xc0, 0xc1, 0xc2, 0xc3, 0xc5, 0xc6, 0xc7, 0xc9, 0xca, 0xcb, 0xcd, 0xce, 0xcf]

/-- The variables of `_jpeg_dimensions`, and what it returns. -/
structure JpegScan where
  position : Nat := 2
  found : Option (Nat × Nat × Nat) := none

/-- One turn of the loop over fill bytes. -/
def fillTurn (body : List UInt8) : Program JpegScan MediaError Bool := do
  let s ← Program.get
  if s.position < body.length then do
    let b ← .ofExcept (byteAt body s.position)
    if b = 0xff then do
      Program.modify fun s => {s with position := s.position + 1}
      return true
    else return false
  else return false

/-- One turn of the loop over markers. -/
def jpegTurn (body : List UInt8) : Program JpegScan MediaError Bool := do
  let s ← Program.get
  if s.position + 4 ≤ body.length then do
    let first ← .ofExcept (byteAt body s.position)
    if first ≠ 0xff then do
      Program.modify fun s => {s with position := s.position + 1}
      return true
    else do
      Program.iterate (fun s => body.length - s.position) .endless (fillTurn body)
      let s ← Program.get
      if body.length ≤ s.position then return false
      else do
        let marker ← .ofExcept (byteAt body s.position)
        let position := s.position + 1
        Program.modify fun s => {s with position}
        if marker = 1 ∨ 0xd0 ≤ marker ∧ marker ≤ 0xd9 then return true
        else if body.length < position + 2 then return false
        else do
          let segmentLength ← .ofExcept (number .big body position (position + 2))
          Program.check (2 ≤ segmentLength && position + segmentLength ≤ body.length)
            (.execution "JPEG segment is truncated or malformed")
          if marker ∈ startOfFrame then do
            Program.check (8 ≤ segmentLength) (.execution "JPEG frame header is malformed")
            let height ← .ofExcept (number .big body (position + 3) (position + 5))
            let width ← .ofExcept (number .big body (position + 5) (position + 7))
            let components ← .ofExcept (byteAt body (position + 7))
            Program.modify fun s => {s with found := some (width, height, components.toNat)}
            return false
          else do
            Program.modify fun s => {s with position := position + segmentLength}
            return true
  else return false

/-- `_jpeg_dimensions`. -/
def jpegDimensions (body : List UInt8) : Except MediaError (Nat × Nat × Nat) := do
  let s ← Program.exec (Program.iterate (fun s => body.length - s.position) .endless (jpegTurn body)) {}
  ofOption (.execution "JPEG dimensions were not found") s.found

/-! ### TIFF -/

/-- What an entry says of the dimensions. -/
def addDimension (body : List UInt8) (order : Order) (dimensions : Dict Nat Int) (entry : Entry) :
    Except MediaError (Dict Nat Int) :=
  if entry.tag ≠ 0x0100 ∧ entry.tag ≠ 0x0101 then return dimensions
  else do
    let value ← readExifValue body entry order
    match value with
    | some (.int value) => return dimensions.set entry.tag value
    | _ => return dimensions

/-- `_tiff_dimensions`. -/
def tiffDimensions (body : List UInt8) : Except MediaError (Int × Int) := do
  require (8 ≤ body.length && ([0x49, 0x49].isPrefixOf body || [0x4d, 0x4d].isPrefixOf body))
    (.execution "TIFF header is malformed")
  let order := byteOrder body
  let mark ← number order body 2 4
  require (mark = 42) (.execution "TIFF marker is invalid")
  let offset ← number order body 4 8
  let (entries, _) ← readIfd body offset order
  let dimensions ← entries.foldlM (addDimension body order) .empty
  let width ← ofOption (.execution "TIFF dimensions were not found") (dimensions.get? 0x0100)
  let height ← ofOption (.execution "TIFF dimensions were not found") (dimensions.get? 0x0101)
  return (width, height)

/-! ### WebP -/

/-- `_webp_dimensions`. -/
def webpDimensions (body : List UInt8) : Except MediaError (Nat × Nat × String) := do
  require (30 ≤ body.length) (.execution "WebP structure is truncated")
  let declaredSize ← number .little body 4 8
  require (declaredSize + 8 = body.length) (.execution "WebP RIFF size is inconsistent")
  let chunk ← slice body 12 16
  if chunk = [0x56, 0x50, 0x38, 0x58] then do
    let width ← number .little body 24 27
    let height ← number .little body 27 30
    return (1 + width, 1 + height, "extended")
  else if chunk = [0x56, 0x50, 0x38, 0x20] then do
    let start ← slice body 23 26
    require (start = [0x9d, 1, 0x2a]) (.execution "WebP VP8 frame header is malformed")
    let width ← number .little body 26 28
    let height ← number .little body 28 30
    return (width &&& 0x3fff, height &&& 0x3fff, "lossy")
  else if chunk = [0x56, 0x50, 0x38, 0x4c] then do
    let mark ← byteAt body 20
    require (mark = 0x2f) (.execution "WebP VP8L frame header is malformed")
    let bits ← number .little body 21 25
    return ((bits &&& 0x3fff) + 1, ((bits >>> 14) &&& 0x3fff) + 1, "lossless")
  else .error (.execution "WebP encoding is unsupported")

/-! ### Images -/

/-- What the metadata says of a format. -/
inductive ImageDetails where
  | png (bitDepth colorType : Nat)
  | gif (version : Text)
  | jpeg (components : Nat)
  | tiff
  | webp (encoding : String)

structure ImageMetadata where
  width : Int
  height : Int
  details : ImageDetails

def pngMark : List UInt8 := [0x89, 0x50, 0x4e, 0x47, 0x0d, 0x0a, 0x1a, 0x0a]
def gifMarks : List (List UInt8) := [[0x47, 0x49, 0x46, 0x38, 0x37, 0x61], [0x47, 0x49, 0x46, 0x38, 0x39, 0x61]]

/-- The reader that the first bytes ask for. -/
def readImage (body : List UInt8) : Except MediaError ImageMetadata :=
  if pngMark.isPrefixOf body then do
    validatePng body
    let width ← number .big body 16 20
    let height ← number .big body 20 24
    let bitDepth ← byteAt body 24
    let colorType ← byteAt body 25
    return {width, height, details := .png bitDepth.toNat colorType.toNat}
  else if gifMarks.any (·.isPrefixOf body) then do
    require (14 ≤ body.length && body.getLast? = some 0x3b) (.execution "GIF structure is truncated or malformed")
    let width ← number .little body 6 8
    let height ← number .little body 8 10
    let version ← slice body 3 6
    return {width, height, details := .gif (version.map fun b => Fin.ofNat 0x110000 b.toNat)}
  else if [0xff, 0xd8].isPrefixOf body then do
    let (width, height, components) ← jpegDimensions body
    require ([0xff, 0xd9].isSuffixOf body) (.execution "JPEG end marker is missing")
    return {width, height, details := .jpeg components}
  else if [0x49, 0x49].isPrefixOf body || [0x4d, 0x4d].isPrefixOf body then do
    let (width, height) ← tiffDimensions body
    return {width, height, details := .tiff}
  else if [0x52, 0x49, 0x46, 0x46].isPrefixOf body && (body.drop 8).take 4 = [0x57, 0x45, 0x42, 0x50] then do
    let (width, height, encoding) ← webpDimensions body
    return {width, height, details := .webp encoding}
  else .error (.execution "unsupported or malformed image format")

/-- `_image_metadata`. -/
def imageMetadata (body : List UInt8) (maximumPixels : Int) : Except MediaError ImageMetadata := do
  let metadata ← readImage body
  require (0 < metadata.width * metadata.height && metadata.width * metadata.height ≤ maximumPixels)
    (.execution "image dimensions exceed the configured pixel bound")
  return metadata

/-! ### The readers stay inside of the body and end -/

section
variable {body : List UInt8}

/-- The first chunk is the header: a body with any chunk is longer than that. -/
def PngInvariant (body : List UInt8) (s : PngScan) : Prop :=
  s.chunkIndex = 0 ∧ s.position = 8 ∧ s.sawIend = false ∨ 33 ≤ body.length

theorem meets_pngTurn {s : PngScan} (hs : PngInvariant body s) : (pngTurn body).Meets s
    (fun more t => if more then PngInvariant body t ∧ body.length - t.position < body.length - s.position
      else t.sawIend = true → 33 ≤ body.length) fun err _ => IsExecution err := by
  unfold pngTurn
  simp only [Program.meets_bind, Program.meets_get, Program.meets_ite, Program.meets_pure]
  refine ⟨fun hinside => ?_, fun _ hiend => ?_⟩
  · rw [number_eq (by omega), slice_eq (by omega)]
    generalize toNat .big (piece body s.position (s.position + 4)) = length
    generalize piece body (s.position + 4) (s.position + 8) = chunkType
    simp only [Program.meets_ofExcept, Except.ok.injEq, forall_eq', reduceCtorEq, false_implies, implies_true, and_true,
      Program.meets_check, Bool.and_eq_true, decide_eq_true_eq]
    refine ⟨fun hfits => ?_, fun _ => isExecution _⟩
    rw [slice_eq (by omega), number_eq hfits.2]
    simp only [Except.ok.injEq, forall_eq', reduceCtorEq, false_implies, implies_true, and_true, Bool.not_eq_true',
      Bool.and_eq_false_iff, decide_eq_false_iff_not, Program.meets_when, Program.meets_modify, if_true,
      if_false]
    refine ⟨fun _ => ⟨fun hheader => ?_, fun _ => isExecution _⟩, fun _ => isExecution _⟩
    have hlong : 33 ≤ body.length := by
      obtain ⟨hfirst, hposition, -⟩ | h := hs
      · obtain hlater | hheader := hheader
        · exact absurd hfirst hlater
        · rw [Bool.or_eq_false_iff, decide_eq_false_iff_not, decide_eq_false_iff_not, not_not] at hheader
          omega
      · exact h
    exact ⟨fun _ => ⟨fun _ => ⟨fun _ _ => hlong, fun _ => isExecution _⟩, fun _ => ⟨.inr hlong, by omega⟩⟩,
      fun _ => ⟨fun _ => ⟨fun _ _ => hlong, fun _ => isExecution _⟩, fun _ => ⟨.inr hlong, by omega⟩⟩⟩
  · obtain ⟨-, -, hnot⟩ | h := hs
    · rw [hnot] at hiend
      cases hiend
    · exact h

/-- A PNG that passes is long enough for its header. -/
theorem meets_validatePng (body : List UInt8) : Meets (validatePng body) (fun _ => 33 ≤ body.length) IsExecution := by
  have hstart : PngInvariant body {} := .inl ⟨rfl, rfl, rfl⟩
  rw [validatePng, meets_bind, Program.meets_exec]
  refine (Program.meets_iterate hstart fun s hs => meets_pngTurn hs).mono (fun _ s hs => ?_) fun _ _ => id
  rw [meets_require, Bool.and_eq_true]
  exact ⟨fun h => hs h.2, fun _ => isExecution _⟩

/-- Fill bytes are passed over. -/
theorem meets_fill (body : List UInt8) (s : JpegScan) :
    (Program.iterate (fun s => body.length - s.position) .endless (fillTurn body)).Meets s
      (fun _ t => s.position ≤ t.position) fun err _ => IsExecution err := by
  refine Program.meets_iterate (I := fun t => s.position ≤ t.position) (Nat.le_refl _) fun t ht => ?_
  unfold fillTurn
  simp only [Program.meets_bind, Program.meets_get, Program.meets_ite, Program.meets_pure, Program.meets_modify, if_true,
    Bool.false_eq_true, if_false, byteAt]
  refine ⟨fun hinside => ?_, fun _ => ht⟩
  rw [byteAt_of_lt hinside, Program.meets_ofExcept]
  exact ⟨fun b _ => ⟨fun _ => by omega, fun _ => ht⟩, fun _ herr => absurd herr.symm error_ne_ok⟩

theorem meets_jpegTurn (body : List UInt8) (s : JpegScan) : (jpegTurn body).Meets s
    (fun more t => if more then True ∧ body.length - t.position < body.length - s.position else True)
    fun err _ => IsExecution err := by
  unfold jpegTurn
  simp only [Program.meets_bind, Program.meets_get, Program.meets_ite, Program.meets_pure, Program.meets_modify, if_true,
    Bool.false_eq_true, if_false, byteAt, true_and]
  refine ⟨fun hinside => ?_, fun _ => trivial⟩
  rw [byteAt_of_lt (by omega), Program.meets_ofExcept]
  refine ⟨fun first _ => ⟨fun _ => by omega, fun _ => ?_⟩, fun _ herr => absurd herr.symm error_ne_ok⟩
  refine (meets_fill body s).mono (fun _ t ht => ⟨fun _ => trivial, fun hleft => ?_⟩) fun _ _ => id
  rw [byteAt_of_lt (by omega), Program.meets_ofExcept]
  refine ⟨fun marker _ => ⟨fun _ => by omega, fun _ => ⟨fun _ => trivial, fun hroom => ?_⟩⟩,
    fun _ herr => absurd herr.symm error_ne_ok⟩
  rw [number_eq (by omega)]
  simp only [Program.meets_ofExcept, Except.ok.injEq, forall_eq', reduceCtorEq, false_implies, implies_true, and_true,
    Program.meets_check, Bool.and_eq_true, decide_eq_true_eq]
  refine ⟨fun hsegment => ⟨fun _ => ⟨fun hframe => ?_, fun _ => isExecution _⟩, fun _ => by omega⟩, fun _ => isExecution _⟩
  rw [number_eq (by omega), number_eq (by omega), byteAt_of_lt (by omega)]
  simp

theorem meets_jpegDimensions (body : List UInt8) : Meets (jpegDimensions body) (fun _ => True) IsExecution := by
  rw [jpegDimensions, meets_bind, Program.meets_exec]
  refine (Program.meets_iterate (I := fun _ => True) (Q := fun _ => True) trivial fun s _ => meets_jpegTurn body s).mono
    (fun _ s _ => ?_) fun _ _ => id
  rw [meets_ofOption]
  exact ⟨fun _ _ => trivial, fun _ => isExecution _⟩

theorem meets_webpDimensions (body : List UInt8) : Meets (webpDimensions body) (fun _ => True) IsExecution := by
  rw [webpDimensions]
  simp only [meets_bind, meets_require, decide_eq_true_eq]
  refine ⟨fun hlong => ?_, fun _ => isExecution _⟩
  rw [number_eq (by omega), slice_eq (by omega), slice_eq (by omega), number_eq (by omega), number_eq (by omega),
    number_eq (by omega), number_eq (by omega), number_eq (by omega), byteAt, byteAt_of_lt (by omega)]
  simp only [meets_ok, meets_bind, meets_ite, meets_require, meets_pure, meets_error, implies_true, true_and]
  exact ⟨fun _ _ => ⟨fun _ _ => isExecution _, fun _ => ⟨fun _ _ => isExecution _, fun _ => isExecution _⟩⟩,
    fun _ => isExecution _⟩

end

/-! ### The dimensions of a TIFF -/

section
variable {body : List UInt8} {order : Order} {entries : List Entry} {tag : Nat}

/-- The integer that an entry holds under a tag. -/
def integerOf (body : List UInt8) (order : Order) (tag : Nat) (entry : Entry) : Option Int :=
  if entry.tag = tag then
    match readExifValue body entry order with
    | .ok (some (.int value)) => some value
    | _ => none
  else none

/-- The last integer under a tag. -/
def lastInteger (body : List UInt8) (order : Order) (tag : Nat) (entries : List Entry) : Option Int :=
  (entries.filterMap (integerOf body order tag)).getLast?

/-- Whether all dimensions among the entries can be read. -/
def Readable (body : List UInt8) (order : Order) (entries : List Entry) : Prop :=
  ∀ entry ∈ entries, entry.tag = 0x0100 ∨ entry.tag = 0x0101 → ∃ value, readExifValue body entry order = .ok value

theorem lastInteger_cons (entry : Entry) (entries : List Entry) : lastInteger body order tag (entry :: entries) =
    (lastInteger body order tag entries).or (integerOf body order tag entry) := by
  rw [lastInteger, lastInteger, List.filterMap_cons]
  cases integerOf body order tag entry with
  | none => simp
  | some value => simp [List.getLast?_cons]

theorem addDimension_eq_ok {dimensions dimensions' : Dict Nat Int} {entry : Entry}
    (h : addDimension body order dimensions entry = .ok dimensions') (htag : tag = 0x0100 ∨ tag = 0x0101) :
    dimensions'.get? tag = (integerOf body order tag entry).or (dimensions.get? tag) := by
  unfold addDimension at h
  unfold integerOf
  split at h
  · rename_i hother
    have hne : ¬ entry.tag = tag := by omega
    cases h
    rw [if_neg hne, Option.none_or]
  · rw [bind_eq_ok] at h
    obtain ⟨value, hvalue, h⟩ := h
    split at h
    · cases h
      rw [hvalue, Dict.get?_set]
      by_cases heq : entry.tag = tag
      · rw [if_pos heq, if_pos heq.symm, Option.some_or]
      · rw [if_neg heq, if_neg (Ne.symm heq), Option.none_or]
    · rename_i hnot
      cases h
      rw [hvalue]
      cases value with
      | none => simp
      | some value =>
        cases value with
        | int n => exact absurd rfl (hnot n)
        | _ => simp

/-- What the loop over the entries finds. -/
theorem foldlM_addDimension (tag : Nat) {dimensions dimensions' : Dict Nat Int}
    (h : entries.foldlM (addDimension body order) dimensions = .ok dimensions') : Readable body order entries ∧
      (tag = 0x0100 ∨ tag = 0x0101 → dimensions'.get? tag = (lastInteger body order tag entries).or (dimensions.get? tag)) := by
  induction entries generalizing dimensions with
  | nil =>
    cases h
    exact ⟨nofun, fun _ => rfl⟩
  | cons entry entries ih =>
    rw [List.foldlM_cons, bind_eq_ok] at h
    obtain ⟨between, hbetween, h⟩ := h
    obtain ⟨hread, hget⟩ := ih h
    refine ⟨List.forall_mem_cons.mpr ⟨fun hdimension => ?_, hread⟩, fun htag => ?_⟩
    · unfold addDimension at hbetween
      rw [if_neg (by omega), bind_eq_ok] at hbetween
      obtain ⟨value, hvalue, -⟩ := hbetween
      exact ⟨value, hvalue⟩
    · rw [hget htag, addDimension_eq_ok hbetween htag, lastInteger_cons, Option.or_assoc]

theorem exists_foldlM_addDimension (h : Readable body order entries) (dimensions : Dict Nat Int) :
    ∃ dimensions', entries.foldlM (addDimension body order) dimensions = .ok dimensions' := by
  induction entries generalizing dimensions with
  | nil => exact ⟨dimensions, rfl⟩
  | cons entry entries ih =>
    obtain ⟨hentry, hrest⟩ := List.forall_mem_cons.mp h
    have hturn : ∃ between, addDimension body order dimensions entry = .ok between := by
      unfold addDimension
      split
      · exact ⟨_, rfl⟩
      · obtain ⟨value, hvalue⟩ := hentry (by omega)
        rw [hvalue]
        cases value with
        | none => exact ⟨_, rfl⟩
        | some value => cases value <;> exact ⟨_, rfl⟩
    obtain ⟨between, hbetween⟩ := hturn
    obtain ⟨dimensions', hrest⟩ := ih hrest between
    refine ⟨dimensions', ?_⟩
    rw [List.foldlM_cons, hbetween]
    exact hrest

end
/-- Whether bytes start as a TIFF does. -/
def isTiff (body : List UInt8) : Bool := [0x49, 0x49].isPrefixOf body || [0x4d, 0x4d].isPrefixOf body

/-- What a TIFF says of its dimensions: the last integers under the two tags in its first IFD. -/
structure TiffDimensions (body : List UInt8) (width height : Int) : Prop where
  long : 8 ≤ body.length
  start : isTiff body = true
  mark : toNat (byteOrder body) (piece body 2 4) = 42
  entries : ∃ entries nextIfd, readIfd body (toNat (byteOrder body) (piece body 4 8)) (byteOrder body) = .ok (entries, nextIfd) ∧
    Readable body (byteOrder body) entries ∧ lastInteger body (byteOrder body) 0x0100 entries = some width ∧
    lastInteger body (byteOrder body) 0x0101 entries = some height

section
variable {body : List UInt8}

theorem meets_addDimension {order : Order} (dimensions : Dict Nat Int) {entry : Entry} (hfield : entry.valueField.length = 4) :
    Meets (addDimension body order dimensions entry) (fun _ => True) IsExecution := by
  unfold addDimension
  split
  · trivial
  · rw [meets_bind]
    refine meets_mono (meets_readExifValue body order hfield) (fun value _ => ?_) fun _ => id
    split <;> trivial

theorem meets_foldlM_addDimension {order : Order} {entries : List Entry} (hfields : ∀ entry ∈ entries, entry.valueField.length = 4)
    (dimensions : Dict Nat Int) :
    Meets (entries.foldlM (addDimension body order) dimensions) (fun _ => True) IsExecution := by
  induction entries generalizing dimensions with
  | nil => trivial
  | cons entry entries ih =>
    rw [List.forall_mem_cons] at hfields
    rw [List.foldlM_cons, meets_bind]
    exact meets_mono (meets_addDimension dimensions hfields.1) (fun between _ => ih hfields.2 between) fun _ => id

theorem meets_tiffDimensions (body : List UInt8) :
    Meets (tiffDimensions body) (fun d => TiffDimensions body d.1 d.2) IsExecution := by
  unfold tiffDimensions
  simp only [meets_bind, meets_require, Bool.and_eq_true, decide_eq_true_eq]
  refine ⟨fun hheader => ?_, fun _ => isExecution _⟩
  rw [number_eq (by omega), number_eq (by omega)]
  refine ⟨fun hmark => ?_, fun _ => isExecution _⟩
  simp only [meets_ok]
  rw [meets_iff]
  have hread := meets_iff.mp (meets_readIfd body (toNat (byteOrder body) (piece body 4 8)) (byteOrder body))
  refine ⟨fun r hr => ?_, hread.2⟩
  rw [meets_iff]
  refine ⟨fun dimensions hdimensions => ?_, fun err herr => ?_⟩
  · simp only [meets_ofOption, meets_pure]
    refine ⟨fun width hwidth => ⟨fun height hheight => ?_, fun _ => isExecution _⟩, fun _ => isExecution _⟩
    have hw := (foldlM_addDimension 0x0100 hdimensions).2 (.inl rfl)
    have hh := (foldlM_addDimension 0x0101 hdimensions).2 (.inr rfl)
    have hnone : ∀ tag, Dict.get? (Dict.empty : Dict Nat Int) tag = none := fun _ => rfl
    rw [hwidth, hnone, Option.or_none] at hw
    rw [hheight, hnone, Option.or_none] at hh
    exact ⟨hheader.1, hheader.2, hmark, r.1, r.2, hr, (foldlM_addDimension 0 hdimensions).1, hw.symm, hh.symm⟩
  · exact (meets_iff.mp (meets_foldlM_addDimension (hread.1 r hr).2.2 _)).2 err herr

theorem TiffDimensions.eq_ok {width height : Int} (h : TiffDimensions body width height) :
    tiffDimensions body = .ok (width, height) := by
  obtain ⟨entries, nextIfd, hread, hreadable, hwidth, hheight⟩ := h.entries
  obtain ⟨dimensions, hdimensions⟩ := exists_foldlM_addDimension hreadable .empty
  have hlong := h.long
  have hstart := h.start
  have hw := (foldlM_addDimension 0x0100 hdimensions).2 (.inl rfl)
  have hh := (foldlM_addDimension 0x0101 hdimensions).2 (.inr rfl)
  rw [hwidth, Option.some_or] at hw
  rw [hheight, Option.some_or] at hh
  unfold isTiff at hstart
  have hmark : number (byteOrder body) body 2 4 = .ok 42 := by rw [number_eq (by omega), h.mark]
  have hoffset : number (byteOrder body) body 4 8 = .ok (toNat (byteOrder body) (piece body 4 8)) := number_eq hlong
  simp only [tiffDimensions, hlong, hstart, decide_true, Bool.and_self, require, if_true, bind, Except.bind, hmark, hoffset, hread,
    hdimensions, hw, hh, ofOption]
  rfl

/-- A TIFF is no image of another format. -/
theorem readImage_tiff {width height : Int} (h : TiffDimensions body width height) :
    readImage body = .ok {width, height, details := .tiff} := by
  have hstart := h.start
  have hnot : pngMark.isPrefixOf body = false ∧ gifMarks.any (·.isPrefixOf body) = false ∧
      [0xff, 0xd8].isPrefixOf body = false := by
    match body, hstart with
    | a :: b :: rest, hstart =>
      simp only [isTiff, List.isPrefixOf, Bool.or_eq_true, Bool.and_eq_true, beq_iff_eq] at hstart
      have ha : a = 0x49 ∨ a = 0x4d := hstart.imp (fun h => h.1.symm) fun h => h.1.symm
      obtain rfl | rfl := ha
      · exact ⟨rfl, rfl, rfl⟩
      · exact ⟨rfl, rfl, rfl⟩
  unfold isTiff at hstart
  simp only [readImage, hnot, hstart, Bool.false_eq_true, if_false, if_true, h.eq_ok]
  rfl

/-- **Every reader** gives dimensions that are not negative, but for that of TIFF. -/
theorem meets_readImage (body : List UInt8) : Meets (readImage body)
    (fun metadata => 0 ≤ metadata.width ∧ 0 ≤ metadata.height ∨ TiffDimensions body metadata.width metadata.height)
    IsExecution := by
  unfold readImage
  simp only [meets_ite, meets_bind, meets_pure]
  refine ⟨fun _ => ?_, fun _ => ⟨fun _ => ?_, fun _ => ⟨fun _ => ?_, fun _ => ⟨fun _ => ?_, fun _ => ⟨fun _ => ?_, fun _ => ?_⟩⟩⟩⟩⟩
  · refine meets_mono (meets_validatePng body) (fun _ hlong => ?_) fun _ => id
    rw [number_eq (by omega), number_eq (by omega), byteAt, byteAt_of_lt (by omega), byteAt, byteAt_of_lt (by omega)]
    exact .inl ⟨Int.natCast_nonneg _, Int.natCast_nonneg _⟩
  · rw [meets_require, Bool.and_eq_true, decide_eq_true_eq]
    refine ⟨fun hlong => ?_, fun _ => isExecution _⟩
    rw [number_eq (by omega), number_eq (by omega), slice_eq (by omega)]
    exact .inl ⟨Int.natCast_nonneg _, Int.natCast_nonneg _⟩
  · refine meets_mono (meets_jpegDimensions body) (fun d _ => ?_) fun _ => id
    rw [meets_require]
    exact ⟨fun _ => .inl ⟨Int.natCast_nonneg _, Int.natCast_nonneg _⟩, fun _ => isExecution _⟩
  · exact meets_mono (meets_tiffDimensions body) (fun d hd => .inr hd) fun _ => id
  · exact meets_mono (meets_webpDimensions body) (fun d _ => .inl ⟨Int.natCast_nonneg _, Int.natCast_nonneg _⟩) fun _ => id
  · exact isExecution _

end

/-! ### The bound -/

/-- What the claim about an image is: an error of the adapter, or dimensions of at least one within the bound. -/
def Bounded (body : List UInt8) (maximumPixels : Int) : Prop :=
  (∀ metadata, imageMetadata body maximumPixels = .ok metadata →
    1 ≤ metadata.width ∧ 1 ≤ metadata.height ∧ metadata.width * metadata.height ≤ maximumPixels) ∧
  ∀ err, imageMetadata body maximumPixels = .error err → ∃ message, err = .execution message

/-- **The dimensions of an image are bounded**, and no reader leaves the body or goes on without end, exactly
if it is no TIFF that says of both its dimensions that they are negative, with their product in the bound. -/
theorem imageMetadata_bounded_iff (body : List UInt8) (maximumPixels : Int) : Bounded body maximumPixels ↔
    ¬ ∃ width height, TiffDimensions body width height ∧ width < 0 ∧ height < 0 ∧ width * height ≤ maximumPixels := by
  constructor
  · intro ⟨hbounded, _⟩ ⟨width, height, hdimensions, hwidth, hheight, hproduct⟩
    have hpositive := Int.mul_pos_of_neg_of_neg hwidth hheight
    have hok : imageMetadata body maximumPixels = .ok {width, height, details := .tiff} := by
      simp only [imageMetadata, readImage_tiff hdimensions, bind, Except.bind, hpositive, hproduct, decide_true, Bool.and_self,
        require, if_true]
      rfl
    have hone : 1 ≤ width := (hbounded _ hok).1
    omega
  · intro hnot
    have hread := meets_iff.mp (meets_readImage body)
    have hall : Meets (imageMetadata body maximumPixels) (fun metadata => 1 ≤ metadata.width ∧ 1 ≤ metadata.height ∧
        metadata.width * metadata.height ≤ maximumPixels) IsExecution := by
      unfold imageMetadata
      rw [meets_bind, meets_iff]
      refine ⟨fun metadata hmetadata => ?_, hread.2⟩
      simp only [meets_bind, meets_require, Bool.and_eq_true, decide_eq_true_eq, meets_pure]
      refine ⟨fun hproduct => ?_, fun _ => isExecution _⟩
      have hsigns := pos_and_pos_or_neg_and_neg_of_mul_pos hproduct.1
      obtain hsigns | hsigns := hsigns
      · exact ⟨hsigns.1, hsigns.2, hproduct.2⟩
      · obtain hnonneg | hdimensions := hread.1 metadata hmetadata
        · omega
        · exact absurd ⟨_, _, hdimensions, hsigns.1, hsigns.2, hproduct.2⟩ hnot
    exact meets_iff.mp hall

/-- A TIFF of which both dimensions are the signed -1. -/
def negativeTiff : List UInt8 :=
  [0x49, 0x49, 42, 0, 8, 0, 0, 0, 2, 0,
    0, 1, 9, 0, 1, 0, 0, 0, 0xff, 0xff, 0xff, 0xff,
    1, 1, 9, 0, 1, 0, 0, 0, 0xff, 0xff, 0xff, 0xff,
    0, 0, 0, 0]

theorem negative_tiff_passes :
    (∃ metadata, imageMetadata negativeTiff 100 = .ok metadata ∧ metadata.width = -1 ∧ metadata.height = -1) ∧
    ¬ Bounded negativeTiff 100 := by
  have hok : imageMetadata negativeTiff 100 = .ok {width := -1, height := -1, details := .tiff} := by rfl
  refine ⟨⟨_, hok, rfl, rfl⟩, fun h => ?_⟩
  have hone := (h.1 _ hok).1
  contradiction

end Fetech.Media
