import Fetech.Media.Exif
import Mathlib.Data.List.TakeWhile

/-! Where the walk over a JPEG finds an Exif segment (`fetech/adapters/media.py`,
`_find_tiff_payload`).

The walk takes whatever follows an 0xFF byte for a marker and, but for two of them, the two bytes
after it for a length. That is right for a segment without fill bytes, and comes to nothing in a scan
without 0xFF bytes (`Jpeg.Clean`). At the first fill byte, stuffed byte or restart that it gets to, it
takes the two bytes after it for a length that the file does not say, and goes on wherever they lead
(`Misread`), if they lead into the file at all (`findsExif_clean`). -/
namespace Fetech.Media
open Lib Lib.Bytes Lib.Except

/-! ### The file -/

/-- Whether a marker has a length after it; a restart, the start, the end, `TEM` and what is no marker have none. -/
def hasLength (marker : UInt8) : Bool :=
  marker ≠ 0 && marker ≠ 1 && marker ≠ 0xff && !(0xd0 ≤ marker && marker ≤ 0xd9)

/-- A number in two bytes. -/
def twoBytes (n : Nat) : List UInt8 := [UInt8.ofNat (n / 256), UInt8.ofNat n]

/-- A marker segment, with fill bytes before it. -/
structure Segment where
  fill : Nat
  marker : UInt8
  data : List UInt8
  hasLength : hasLength marker = true := by decide
  fits : data.length + 2 < 65536 := by decide

def Segment.bytes (segment : Segment) : List UInt8 :=
  List.replicate segment.fill 0xff ++ 0xff :: segment.marker :: (twoBytes (segment.data.length + 2) ++ segment.data)

/-- Whether a segment is APP1 with Exif in it. -/
def Segment.isExif (segment : Segment) : Bool := segment.marker = 0xe1 && exifMark.isPrefixOf segment.data

/-- A part of entropy-coded data. -/
inductive ScanPart where
  | byte (b : UInt8) (plain : b ≠ 0xff)
  | stuffed
  | restart (n : Fin 8)

def ScanPart.bytes : ScanPart → List UInt8
  | .byte b _ => [b]
  | .stuffed => [0xff, 0]
  | .restart n => [0xff, UInt8.ofNat (0xd0 + n)]

/-- A well-formed JPEG. -/
structure Jpeg where
  segments : List Segment
  noScan : ∀ segment ∈ segments, segment.marker ≠ 0xda := by decide
  sos : Segment
  isSos : sos.marker = 0xda := by decide
  scan : List ScanPart

namespace Jpeg

/-- The entropy-coded data and the end of the image. -/
def scanBytes (j : Jpeg) : List UInt8 := j.scan.flatMap ScanPart.bytes ++ [0xff, 0xd9]

def bytes (j : Jpeg) : List UInt8 :=
  [0xff, 0xd8] ++ ((j.segments ++ [j.sos]).flatMap Segment.bytes ++ j.scanBytes)

/-- The payload of the first Exif segment. -/
def exif (j : Jpeg) : Option (List UInt8) := (j.segments.find? Segment.isExif).map fun segment => segment.data.drop 6

/-- The segments before the first that has a fill byte. -/
def unfilled (j : Jpeg) : List Segment := (j.segments ++ [j.sos]).takeWhile (·.fill = 0)

/-- What comes after them: the first fill byte and the rest of the file, or the scan. -/
def afterUnfilled (j : Jpeg) : List UInt8 :=
  ((j.segments ++ [j.sos]).dropWhile (·.fill = 0)).flatMap Segment.bytes ++ j.scanBytes

end Jpeg

/-- What is found in bytes that are cut at each 0xFF into two bytes for a marker, two for a length and as
many as it says, and otherwise skipped: the first piece with the marks of Exif, or nothing up to the last
three bytes. A cut that does not come out has no result. -/
inductive Misread : List UInt8 → Option (List UInt8) → Prop
  | short {rest : List UInt8} (h : rest.length < 4) : Misread rest none
  | byte {b : UInt8} {rest : List UInt8} {found : Option (List UInt8)} (hb : b ≠ 0xff) (hrest : 3 ≤ rest.length)
      (h : Misread rest found) : Misread (b :: rest) found
  | alone {marker : UInt8} {rest : List UInt8} {found : Option (List UInt8)} (hmarker : marker = 0xd8 ∨ marker = 0xd9)
      (hrest : 2 ≤ rest.length) (h : Misread rest found) : Misread (0xff :: marker :: rest) found
  | segment {marker hi lo : UInt8} {data rest : List UInt8} {found : Option (List UInt8)}
      (hmarker : ¬ (marker = 0xd8 ∨ marker = 0xd9)) (hlength : toNat .big [hi, lo] = data.length + 2)
      (hexif : ¬ (marker = 0xe1 ∧ exifMark.isPrefixOf data)) (h : Misread rest found) :
      Misread (0xff :: marker :: hi :: lo :: (data ++ rest)) found
  | exif {hi lo : UInt8} {data rest : List UInt8} (hlength : toNat .big [hi, lo] = data.length + 2)
      (hexif : exifMark.isPrefixOf data) : Misread (0xff :: 0xe1 :: hi :: lo :: (data ++ rest)) (some (data.drop 6))

/-! ### The walk -/

/-- The walk from a position on. -/
def walk (body : List UInt8) (position : Nat) : Except MediaError (Option (List UInt8)) := do
  let s ← Program.exec (Program.iterate (fun s => body.length - s.position) .endless (payloadTurn body)) {position}
  return s.found

section
variable {body : List UInt8} {p : Nat}

theorem falls_payloadTurn (body : List UInt8) : Program.Falls (fun s => body.length - s.position) (payloadTurn body) := by
  intro s t h
  have hturn := meets_payloadTurn body s
  unfold Program.Meets at hturn
  rw [h] at hturn
  exact hturn.2

theorem walk_true {q : Nat} (h : payloadTurn body {position := p} = (.ok true, {position := q})) : walk body p = walk body q := by
  rw [walk, walk, Program.exec, Program.exec, Program.iterate_true (falls_payloadTurn body) h]

theorem walk_false {found : Option (List UInt8)} {q : Nat}
    (h : payloadTurn body {position := p} = (.ok false, {position := q, found})) : walk body p = .ok found := by
  rw [walk, Program.exec, Program.iterate_false h]
  rfl

theorem walk_error {err : MediaError} {t : PayloadWalk} (h : payloadTurn body {position := p} = (.error err, t)) :
    walk body p = .error err := by
  rw [walk, Program.exec, Program.iterate_error h]
  rfl

theorem walk_short (h : (body.drop p).length < 4) : walk body p = .ok none := by
  rw [List.length_drop] at h
  apply walk_false (q := p)
  have hshort : ¬ p + 4 ≤ body.length := by omega
  simp [payloadTurn, Program.get, bind, pure, hshort]

theorem byteAt_drop {rest : List UInt8} {i : Nat} {b : UInt8} (h : body.drop p = rest) (hb : rest[i]? = some b) :
    byteAt body (p + i) = .ok b := by
  rw [byteAt, Bytes.byteAt, ← List.getElem?_drop, h, hb]
  rfl

theorem walk_byte {b : UInt8} {rest : List UInt8} (h : body.drop p = b :: rest) (hb : b ≠ 0xff) (hrest : 3 ≤ rest.length) :
    walk body p = walk body (p + 1) := by
  have hlength := congrArg List.length h
  rw [List.length_drop, List.length_cons] at hlength
  have hinside : p + 4 ≤ body.length := by omega
  have hfirst : byteAt body p = .ok b := byteAt_drop (i := 0) h rfl
  apply walk_true
  simp [payloadTurn, Program.get, Program.ofExcept, Program.modify, bind, pure, hinside, hfirst, hb]

theorem walk_alone {marker : UInt8} {rest : List UInt8} (h : body.drop p = 0xff :: marker :: rest)
    (hmarker : marker = 0xd8 ∨ marker = 0xd9) (hrest : 2 ≤ rest.length) : walk body p = walk body (p + 2) := by
  have hlength := congrArg List.length h
  rw [List.length_drop, List.length_cons, List.length_cons] at hlength
  have hinside : p + 4 ≤ body.length := by omega
  have hfirst : byteAt body p = .ok 0xff := byteAt_drop (i := 0) h rfl
  have hsecond : byteAt body (p + 1) = .ok marker := byteAt_drop h rfl
  apply walk_true
  simp [payloadTurn, Program.get, Program.ofExcept, Program.modify, bind, pure, hinside, hfirst, hsecond, hmarker]

/-- Where the walk takes two bytes for a length. -/
theorem payloadTurn_marker {marker hi lo : UInt8} {tail : List UInt8} {n : Nat}
    (h : body.drop p = 0xff :: marker :: hi :: lo :: tail) (hmarker : ¬ (marker = 0xd8 ∨ marker = 0xd9))
    (hn : toNat .big [hi, lo] = n) : payloadTurn body {position := p} =
      if 2 ≤ n ∧ n ≤ tail.length + 2 then
        if marker = 0xe1 ∧ exifMark.isPrefixOf (tail.take (n - 2)) then
          (.ok false, {position := p + 2, found := some ((tail.take (n - 2)).drop 6)})
        else (.ok true, {position := p + 2 + n})
      else (.error (.execution "JPEG EXIF segment is malformed"), {position := p + 2}) := by
  have hlength := congrArg List.length h
  simp only [List.length_drop, List.length_cons] at hlength
  have hinside : p + 4 ≤ body.length := by omega
  have hnot : ¬ body.length < p + 4 := by omega
  have hfirst : byteAt body p = .ok 0xff := byteAt_drop (i := 0) h rfl
  have hsecond : byteAt body (p + 1) = .ok marker := byteAt_drop h rfl
  have hnumber : number .big body (p + 2) (p + 4) = .ok n := by
    rw [number_eq hinside, piece_add, h, ← hn]
    rfl
  simp only [payloadTurn, Program.get, Program.ofExcept, Program.modify, bind, pure, hinside, ↓reduceIte, hfirst, ne_eq,
    not_true_eq_false, hsecond, hmarker, hnot, hnumber, Program.check, require]
  by_cases hfits : 2 ≤ n ∧ n ≤ tail.length + 2
  · have hend : p + 2 + n ≤ body.length := by omega
    have hdata : piece body (p + 4) (p + 2 + n) = tail.take (n - 2) := by
      have hsum : p + 2 + n = p + (2 + n) := by omega
      rw [hsum, piece_add, h]
      have hcount : 2 + n - 4 = n - 2 := by omega
      show tail.take (2 + n - 4) = tail.take (n - 2)
      rw [hcount]
    rw [if_pos hfits]
    by_cases hexif : marker = 0xe1 ∧ exifMark.isPrefixOf (tail.take (n - 2)) = true
    · simp only [hfits.1, hend, decide_true, Bool.and_self, ↓reduceIte, slice_eq hend, hdata, hexif, and_self]
    · simp only [hfits.1, hend, decide_true, Bool.and_self, ↓reduceIte, slice_eq hend, hdata, hexif]
  · have hover : (decide (2 ≤ n) && decide (p + 2 + n ≤ body.length)) = false := by
      rw [Bool.and_eq_false_iff, decide_eq_false_iff_not, decide_eq_false_iff_not]
      omega
    rw [if_neg hfits]
    simp only [hover, Bool.false_eq_true, ↓reduceIte]

theorem walk_segment {marker hi lo : UInt8} {data rest : List UInt8}
    (h : body.drop p = 0xff :: marker :: hi :: lo :: (data ++ rest)) (hmarker : ¬ (marker = 0xd8 ∨ marker = 0xd9))
    (hlength : toNat .big [hi, lo] = data.length + 2) (hexif : ¬ (marker = 0xe1 ∧ exifMark.isPrefixOf data)) :
    walk body p = walk body (p + (4 + data.length)) := by
  have hturn := payloadTurn_marker h hmarker hlength
  rw [Nat.add_sub_cancel, List.take_left, if_pos ⟨by omega, by simp⟩, if_neg hexif] at hturn
  rw [walk_true hturn]
  congr 1
  omega

theorem walk_exif {hi lo : UInt8} {data rest : List UInt8} (h : body.drop p = 0xff :: 0xe1 :: hi :: lo :: (data ++ rest))
    (hlength : toNat .big [hi, lo] = data.length + 2) (hexif : exifMark.isPrefixOf data) :
    walk body p = .ok (some (data.drop 6)) := by
  have hturn := payloadTurn_marker h (by decide) hlength
  rw [Nat.add_sub_cancel, List.take_left, if_pos ⟨by omega, by simp⟩, if_pos ⟨rfl, hexif⟩] at hturn
  exact walk_false hturn

/-- **The walk finds what a misreading finds**, and raises where there is none. -/
theorem walk_eq_ok_iff {rest : List UInt8} (h : body.drop p = rest) {found : Option (List UInt8)} :
    walk body p = .ok found ↔ Misread rest found := by
  constructor
  · intro hwalk
    induction hn : rest.length using Nat.strong_induction_on generalizing p rest with
    | _ n ih =>
      subst hn
      match rest, h, ih with
      | a :: b :: c :: d :: tail, h, ih =>
        have hdrop : ∀ n, body.drop (p + n) = (a :: b :: c :: d :: tail).drop n := by
          intro n
          rw [← List.drop_drop, h]
        by_cases ha : a = 0xff
        · subst ha
          by_cases hmarker : b = 0xd8 ∨ b = 0xd9
          · rw [walk_alone h hmarker (by simp)] at hwalk
            exact .alone hmarker (by simp) (ih _ (by simp) (hdrop 2) hwalk rfl)
          · have hturn := payloadTurn_marker h hmarker rfl
            have hsplit := List.take_append_drop (toNat .big [c, d] - 2) tail
            by_cases hfits : 2 ≤ toNat .big [c, d] ∧ toNat .big [c, d] ≤ tail.length + 2
            · have hlength : toNat .big [c, d] = (tail.take (toNat .big [c, d] - 2)).length + 2 := by
                rw [List.length_take]
                omega
              rw [if_pos hfits] at hturn
              by_cases hexif : b = 0xe1 ∧ exifMark.isPrefixOf (tail.take (toNat .big [c, d] - 2)) = true
              · rw [if_pos hexif] at hturn
                rw [walk_false hturn] at hwalk
                cases hwalk
                have hall : Misread (0xff :: 0xe1 :: c :: d :: (tail.take (toNat .big [c, d] - 2) ++
                  tail.drop (toNat .big [c, d] - 2))) _ := .exif hlength hexif.2
                rw [hsplit] at hall
                rw [hexif.1]
                exact hall
              · rw [if_neg hexif] at hturn
                rw [walk_true hturn, Nat.add_assoc] at hwalk
                have hrest := hdrop (2 + toNat .big [c, d])
                have hcount : 2 + toNat .big [c, d] = toNat .big [c, d] - 2 + 4 := by omega
                rw [hcount, List.drop_succ_cons, List.drop_succ_cons, List.drop_succ_cons, List.drop_succ_cons, ← hcount] at hrest
                have hread := ih _ (by simp only [List.length_drop, List.length_cons]; omega) hrest hwalk rfl
                have hall : Misread (0xff :: b :: c :: d :: (tail.take (toNat .big [c, d] - 2) ++
                  tail.drop (toNat .big [c, d] - 2))) found := .segment hmarker hlength hexif hread
                rwa [hsplit] at hall
            · rw [if_neg hfits] at hturn
              rw [walk_error hturn] at hwalk
              cases hwalk
        · rw [walk_byte h ha (by simp)] at hwalk
          exact .byte ha (by simp) (ih _ (by simp) (hdrop 1) hwalk rfl)
      | [], h, _ | [_], h, _ | [_, _], h, _ | [_, _, _], h, _ =>
        rw [walk_short (h ▸ by simp)] at hwalk
        cases hwalk
        exact .short (by simp)
  · intro hread
    induction hread generalizing p with
    | short hshort => exact walk_short (h ▸ hshort)
    | @byte b rest found hb hrest _ ih =>
      rw [walk_byte h hb hrest]
      apply ih
      rw [← List.drop_drop, h]
      rfl
    | @alone marker rest found hmarker hrest _ ih =>
      rw [walk_alone h hmarker hrest]
      apply ih
      rw [← List.drop_drop, h]
      rfl
    | @segment marker hi lo data rest found hmarker hlength hexif _ ih =>
      rw [walk_segment h hmarker hlength hexif]
      apply ih
      rw [← List.drop_drop, h, Nat.add_comm 4]
      simp
    | exif hlength hexif => exact walk_exif h hlength hexif

end

/-! ### The walk and the file -/

section
variable {body : List UInt8} {p : Nat}

theorem toNat_twoBytes {n : Nat} (h : n < 65536) : toNat .big (twoBytes n) = n := by
  simp only [Bytes.toNat, twoBytes, List.foldl_cons, List.foldl_nil, UInt8.toNat_ofNat']
  omega

theorem Segment.bytes_eq {segment : Segment} (h : segment.fill = 0) : segment.bytes =
    0xff :: segment.marker :: UInt8.ofNat ((segment.data.length + 2) / 256) :: UInt8.ofNat (segment.data.length + 2) ::
      segment.data := by
  rw [Segment.bytes, h]
  rfl

theorem Segment.not_alone (segment : Segment) : ¬ (segment.marker = 0xd8 ∨ segment.marker = 0xd9) := by
  have hlength := segment.hasLength
  intro h
  obtain heq | heq := h
  · rw [heq] at hlength
    cases hlength
  · rw [heq] at hlength
    cases hlength

theorem Segment.isExif_iff (segment : Segment) :
    segment.isExif = true ↔ segment.marker = 0xe1 ∧ exifMark.isPrefixOf segment.data = true := by
  rw [Segment.isExif, Bool.and_eq_true, decide_eq_true_eq]

/-- The walk takes segments without fill bytes as they are, up to the first with Exif in it. -/
theorem walk_segments {segments : List Segment} (hfill : ∀ segment ∈ segments, segment.fill = 0) {rest : List UInt8}
    (h : body.drop p = segments.flatMap Segment.bytes ++ rest) :
    match segments.find? Segment.isExif with
    | some segment => walk body p = .ok (some (segment.data.drop 6))
    | none => ∃ q, body.drop q = rest ∧ walk body p = walk body q := by
  induction segments generalizing p with
  | nil => exact ⟨p, h, rfl⟩
  | cons segment segments ih =>
    rw [List.forall_mem_cons] at hfill
    rw [List.flatMap_cons, Segment.bytes_eq hfill.1, List.append_assoc] at h
    have hlength : toNat .big [UInt8.ofNat ((segment.data.length + 2) / 256), UInt8.ofNat (segment.data.length + 2)] =
        segment.data.length + 2 := toNat_twoBytes segment.fits
    cases hexif : segment.isExif with
    | true =>
      rw [List.find?_cons_of_pos hexif]
      obtain ⟨hmarker, hmark⟩ := segment.isExif_iff.mp hexif
      rw [hmarker] at h
      exact walk_exif h hlength hmark
    | false =>
      rw [List.find?_cons_of_neg (by rw [hexif]; exact Bool.false_ne_true)]
      have hnot : ¬ (segment.marker = 0xe1 ∧ exifMark.isPrefixOf segment.data = true) := by
        rw [← segment.isExif_iff, hexif]
        exact Bool.false_ne_true
      have hdrop : body.drop (p + (4 + segment.data.length)) = segments.flatMap Segment.bytes ++ rest := by
        rw [← List.drop_drop, h, Nat.add_comm 4]
        simp
      rw [walk_segment h segment.not_alone hlength hnot]
      exact ih hfill.2 hdrop

end

/-- What the claim about a JPEG is: without Exif it has no fields and with Exif its payload is found. -/
def FindsExif (j : Jpeg) : Prop :=
  (j.exif = none → ∀ maximumFields, extractExifMetadata j.bytes maximumFields =
    .ok {fields := .empty, omittedSensitiveFields := 0, truncated := none}) ∧
  ∀ payload, j.exif = some payload → findTiffPayload j.bytes = .ok (some payload)

theorem truncated_extractPayload {tiff : List UInt8} {maximumFields : Nat} {metadata : ExifMetadata}
    (h : extractPayload tiff maximumFields = .ok metadata) : metadata.truncated ≠ none := by
  simp only [extractPayload, bind_eq_ok] at h
  obtain ⟨_, _, mark, _, _, _, first, _, h⟩ := h
  split at h
  · cases h
  · cases h
    exact Option.some_ne_none _

theorem findsExif_iff_find (j : Jpeg) : FindsExif j ↔ findTiffPayload j.bytes = .ok j.exif := by
  cases hexif : j.exif with
  | some payload =>
    constructor
    · exact fun h => h.2 payload hexif
    · refine fun h => ⟨fun hnone => ?_, fun payload' heq => ?_⟩
      · rw [hexif] at hnone
        cases hnone
      · rw [hexif] at heq
        cases heq
        exact h
  | none =>
    constructor
    · intro h
      have hextract := h.1 hexif 0
      rw [extractExifMetadata, bind_eq_ok] at hextract
      obtain ⟨payload, hpayload, hmetadata⟩ := hextract
      cases payload with
      | none => exact hpayload
      | some tiff => exact absurd rfl (truncated_extractPayload hmetadata)
    · refine fun h => ⟨fun _ maximumFields => ?_, fun payload heq => ?_⟩
      · rw [extractExifMetadata, h]
        rfl
      · rw [hexif] at heq
        cases heq

theorem findTiffPayload_eq_walk (j : Jpeg) : findTiffPayload j.bytes = walk j.bytes 2 := by
  rw [findTiffPayload, if_neg (by simp [Jpeg.bytes, List.isPrefixOf]), if_neg (by simp [Jpeg.bytes, List.isPrefixOf])]
  rfl

/-- The Exif of a JPEG is found if it is in a segment before the first with a fill byte, or if what follows
those segments comes out as it should when it is misread. -/
theorem findsExif_iff_misread (j : Jpeg) :
    FindsExif j ↔ (∃ segment ∈ j.unfilled, segment.isExif = true) ∨ Misread j.afterUnfilled j.exif := by
  have hdrop : j.bytes.drop 2 = j.unfilled.flatMap Segment.bytes ++ j.afterUnfilled := by
    rw [Jpeg.unfilled, Jpeg.afterUnfilled, ← List.append_assoc, ← List.flatMap_append, List.takeWhile_append_dropWhile]
    rfl
  have hfill : ∀ segment ∈ j.unfilled, segment.fill = 0 := by
    intro segment hsegment
    have hall := List.all_eq_true.mp (List.all_takeWhile (p := fun segment : Segment => decide (segment.fill = 0))) segment hsegment
    exact of_decide_eq_true hall
  have hsos : j.sos.isExif = false := by
    rw [Segment.isExif, j.isSos]
    rfl
  have hexif : j.exif = ((j.unfilled ++ (j.segments ++ [j.sos]).dropWhile (·.fill = 0)).find? Segment.isExif).map
      fun segment => segment.data.drop 6 := by
    rw [Jpeg.unfilled, List.takeWhile_append_dropWhile, List.find?_append, List.find?_singleton, hsos]
    simp [Jpeg.exif]
  have hwalk := walk_segments hfill hdrop
  rw [findsExif_iff_find, findTiffPayload_eq_walk]
  cases hfind : j.unfilled.find? Segment.isExif with
  | some segment =>
    rw [hfind] at hwalk
    rw [List.find?_append, hfind] at hexif
    have hmem : ∃ segment ∈ j.unfilled, segment.isExif = true :=
      ⟨segment, List.mem_of_find?_eq_some hfind, List.find?_some hfind⟩
    rw [hwalk, hexif]
    exact iff_of_true rfl (.inl hmem)
  | none =>
    rw [hfind] at hwalk
    obtain ⟨q, hq, heq⟩ := hwalk
    rw [List.find?_eq_none] at hfind
    have hnone : ¬ ∃ segment ∈ j.unfilled, segment.isExif = true := fun ⟨segment, hmem, hsegment⟩ => hfind segment hmem hsegment
    rw [heq, walk_eq_ok_iff hq, or_iff_right hnone]

/-! ### Files that are not misread -/

def ScanPart.isByte : ScanPart → Bool
  | .byte .. => true
  | _ => false

namespace Jpeg

/-- No fill byte stands before the first Exif segment or, where there is none, in any segment, and then the
scan has no 0xFF byte either. -/
def Clean (j : Jpeg) : Prop :=
  (∃ segment ∈ j.unfilled, segment.isExif = true) ∨
    (∀ segment ∈ j.segments ++ [j.sos], segment.fill = 0) ∧ ∀ part ∈ j.scan, part.isByte = true

/-- From the first 0xFF on that is a fill byte or in the scan, up to the end of the image. -/
def misread (j : Jpeg) : List UInt8 := j.afterUnfilled.dropWhile (· ≠ 0xff)

/-- The two bytes after the first pair that is misread are no length into the file. -/
def BreaksOff (j : Jpeg) : Prop :=
  ∀ marker hi lo tail, j.misread = 0xff :: marker :: hi :: lo :: tail →
    toNat .big [hi, lo] < 2 ∨ tail.length + 2 < toNat .big [hi, lo]

end Jpeg

theorem misread_bytes {front : List UInt8} (h : ∀ b ∈ front, b ≠ 0xff) : Misread (front ++ [0xff, 0xd9]) none := by
  induction front with
  | nil => exact .short (by decide)
  | cons b front ih =>
    obtain ⟨hb, hfront⟩ := List.forall_mem_cons.mp h
    by_cases hshort : front.length = 0
    · refine .short ?_
      rw [List.length_append, List.length_cons, hshort]
      decide
    · have hrest : 3 ≤ (front ++ [0xff, 0xd9]).length := by
        rw [List.length_append, List.length_cons, List.length_cons, List.length_nil]
        omega
      exact .byte hb hrest (ih hfront)

theorem flatMap_bytes {scan : List ScanPart} (h : ∀ part ∈ scan, part.isByte = true) :
    ∀ b ∈ scan.flatMap ScanPart.bytes, b ≠ 0xff := by
  intro b hb
  obtain ⟨part, hpart, hmem⟩ := List.mem_flatMap.mp hb
  cases part with
  | byte b' plain =>
    rw [ScanPart.bytes, List.mem_singleton] at hmem
    exact hmem ▸ plain
  | stuffed => exact absurd (h _ hpart) Bool.false_ne_true
  | restart n => exact absurd (h _ hpart) Bool.false_ne_true

theorem Jpeg.Clean.findsExif {j : Jpeg} (h : j.Clean) : FindsExif j := by
  rw [findsExif_iff_misread]
  by_cases hexif : ∃ segment ∈ j.unfilled, segment.isExif = true
  · exact .inl hexif
  · obtain ⟨hfill, hscan⟩ := h.resolve_left hexif
    have hall : j.unfilled = j.segments ++ [j.sos] := by
      rw [Jpeg.unfilled, List.takeWhile_eq_self_iff]
      exact fun segment hsegment => decide_eq_true (hfill segment hsegment)
    have hafter : j.afterUnfilled = j.scanBytes := by
      rw [Jpeg.afterUnfilled, List.dropWhile_eq_nil_iff.mpr fun segment hsegment => decide_eq_true (hfill segment hsegment)]
      rfl
    have hnone : j.exif = none := by
      rw [Jpeg.exif, Option.map_eq_none_iff, List.find?_eq_none]
      intro segment hsegment hsegment'
      exact hexif ⟨segment, hall ▸ List.mem_append_left _ hsegment, hsegment'⟩
    rw [hafter, hnone]
    exact .inr (misread_bytes (flatMap_bytes hscan))

/-- What is misread, byte by byte: what comes before the first 0xFF is skipped. -/
theorem Misread.of_front {front rest : List UInt8} {found : Option (List UInt8)} (hfront : ∀ b ∈ front, b ≠ 0xff)
    (hrest : 4 ≤ rest.length) (h : Misread (front ++ rest) found) : Misread rest found := by
  induction front with
  | nil => exact h
  | cons b front ih =>
    obtain ⟨hb, hfront⟩ := List.forall_mem_cons.mp hfront
    rw [List.cons_append] at h
    have hlength : (front ++ rest).length = front.length + rest.length := List.length_append
    generalize front ++ rest = bytes at h ih hlength
    cases h with
    | short hshort =>
      rw [List.length_cons] at hshort
      omega
    | byte _ _ h => exact ih hfront h
    | alone => exact absurd rfl hb
    | segment => exact absurd rfl hb
    | exif => exact absurd rfl hb

/-- Where a scan is not of bytes alone there is a stuffed byte or a restart in it. -/
theorem exists_pair {scan : List ScanPart} (h : ¬ ∀ part ∈ scan, part.isByte = true) : ∃ front marker tail,
    scan.flatMap ScanPart.bytes = front ++ 0xff :: marker :: tail ∧ (∀ b ∈ front, b ≠ 0xff) ∧
      ¬ (marker = 0xd8 ∨ marker = 0xd9) := by
  induction scan with
  | nil => exact absurd (List.forall_mem_nil _) h
  | cons part scan ih =>
    cases part with
    | byte b plain =>
      have hrest : ¬ ∀ part ∈ scan, part.isByte = true := fun hall => h (List.forall_mem_cons.mpr ⟨rfl, hall⟩)
      obtain ⟨front, marker, tail, heq, hfront, hmarker⟩ := ih hrest
      refine ⟨b :: front, marker, tail, ?_, List.forall_mem_cons.mpr ⟨plain, hfront⟩, hmarker⟩
      rw [List.flatMap_cons, heq]
      rfl
    | stuffed => exact ⟨[], 0, scan.flatMap ScanPart.bytes, rfl, List.forall_mem_nil _, by decide⟩
    | restart n =>
      have hmarker : ∀ n : Fin 8, ¬ (UInt8.ofNat (0xd0 + n) = 0xd8 ∨ UInt8.ofNat (0xd0 + n) = 0xd9) := by decide
      exact ⟨[], UInt8.ofNat (0xd0 + n), scan.flatMap ScanPart.bytes, rfl, List.forall_mem_nil _, hmarker n⟩

theorem Segment.bytes_filled {segment : Segment} (h : segment.fill ≠ 0) :
    ∃ third fourth tail, segment.bytes = 0xff :: 0xff :: third :: fourth :: tail := by
  obtain ⟨k, hk⟩ := Nat.exists_eq_add_one_of_ne_zero h
  rw [Segment.bytes, hk]
  cases k with
  | zero => exact ⟨_, _, _, rfl⟩
  | succ k =>
    rw [List.replicate_succ, List.replicate_succ]
    cases k with
    | zero => exact ⟨_, _, _, rfl⟩
    | succ k =>
      rw [List.replicate_succ]
      cases k with
      | zero => exact ⟨_, _, _, rfl⟩
      | succ k =>
        rw [List.replicate_succ]
        exact ⟨_, _, _, rfl⟩

/-- A file that is not clean is misread at a pair of bytes that is no start or end of an image. -/
theorem exists_misread {j : Jpeg} (h : ¬ j.Clean) : ∃ front marker hi lo tail,
    j.afterUnfilled = front ++ 0xff :: marker :: hi :: lo :: tail ∧ (∀ b ∈ front, b ≠ 0xff) ∧
      ¬ (marker = 0xd8 ∨ marker = 0xd9) := by
  rw [Jpeg.afterUnfilled]
  cases hfilled : (j.segments ++ [j.sos]).dropWhile (fun segment => decide (segment.fill = 0)) with
  | cons segment segments =>
    have hfill : segment.fill ≠ 0 := by
      have hhead := List.head?_dropWhile_not (fun segment : Segment => decide (segment.fill = 0)) (j.segments ++ [j.sos])
      rw [hfilled] at hhead
      simpa using hhead
    obtain ⟨third, fourth, tail, hbytes⟩ := Segment.bytes_filled hfill
    refine ⟨[], 0xff, third, fourth, tail ++ (segments.flatMap Segment.bytes ++ j.scanBytes), ?_, List.forall_mem_nil _, by decide⟩
    rw [List.flatMap_cons, hbytes, List.append_assoc]
    rfl
  | nil =>
    have hfill : ∀ segment ∈ j.segments ++ [j.sos], segment.fill = 0 :=
      fun segment hsegment => of_decide_eq_true (List.dropWhile_eq_nil_iff.mp hfilled segment hsegment)
    obtain ⟨front, marker, tail, hscan, hfront, hmarker⟩ := exists_pair fun hscan => h (.inr ⟨hfill, hscan⟩)
    have hbytes : j.scanBytes = front ++ 0xff :: marker :: (tail ++ [0xff, 0xd9]) := by
      rw [Jpeg.scanBytes, hscan, List.append_assoc]
      rfl
    rw [List.flatMap_nil, List.nil_append, hbytes]
    obtain ⟨hi, lo, rest, hrest⟩ : ∃ hi lo rest, tail ++ [0xff, 0xd9] = hi :: lo :: rest := by
      cases tail with
      | nil => exact ⟨_, _, _, rfl⟩
      | cons hi tail =>
        cases tail with
        | nil => exact ⟨_, _, _, rfl⟩
        | cons lo tail => exact ⟨_, _, _, rfl⟩
    rw [hrest]
    exact ⟨front, marker, hi, lo, rest, rfl, hfront, hmarker⟩

/-- **Where the Exif of a JPEG is found**: in every file that is clean; and where the two bytes after the first
pair that is misread are no length into the file, in no other. -/
theorem findsExif_clean (j : Jpeg) : (j.Clean → FindsExif j) ∧ (j.BreaksOff → (FindsExif j ↔ j.Clean)) := by
  refine ⟨Jpeg.Clean.findsExif, fun hbreaks => ⟨fun hfinds => ?_, Jpeg.Clean.findsExif⟩⟩
  by_contra hclean
  obtain ⟨front, marker, hi, lo, tail, hafter, hfront, hmarker⟩ := exists_misread hclean
  have hmisread : j.misread = 0xff :: marker :: hi :: lo :: tail := by
    have hskip : ∀ b ∈ front, decide (b ≠ 0xff) = true := fun b hb => decide_eq_true (hfront b hb)
    rw [Jpeg.misread, hafter, List.dropWhile_append_of_pos hskip]
    rfl
  have hlength := hbreaks _ _ _ _ hmisread
  obtain hexif | hread := (findsExif_iff_misread j).mp hfinds
  · exact hclean (.inl hexif)
  · rw [hafter] at hread
    have hread := hread.of_front hfront (by simp)
    generalize hrest : 0xff :: marker :: hi :: lo :: tail = rest at hread
    generalize j.exif = found at hread
    cases hread with
    | short hshort =>
      rw [← hrest] at hshort
      simp only [List.length_cons] at hshort
      omega
    | byte hb =>
      cases hrest
      exact hb rfl
    | alone halone =>
      cases hrest
      exact hmarker halone
    | segment _ hlength' =>
      cases hrest
      rw [List.length_append] at hlength
      omega
    | exif hlength' =>
      cases hrest
      rw [List.length_append] at hlength
      omega

/-- A scan of three bytes, the second of them a stuffed 0xFF. -/
def stuffedJpeg : Jpeg where
  segments := []
  sos := {fill := 0, marker := 0xda, data := [1, 1, 0, 0, 0x3f, 0]}
  scan := [.byte 0x12 (by decide), .stuffed, .byte 0x34 (by decide)]

theorem stuffed_byte_raises :
    stuffedJpeg.exif = none ∧ stuffedJpeg.bytes =
      [0xff, 0xd8, 0xff, 0xda, 0, 8, 1, 1, 0, 0, 0x3f, 0, 0x12, 0xff, 0, 0x34, 0xff, 0xd9] ∧
    extractExifMetadata stuffedJpeg.bytes 32 = .error (.execution "JPEG EXIF segment is malformed") ∧
    ¬ FindsExif stuffedJpeg := by
  have hraises : extractExifMetadata stuffedJpeg.bytes 32 = .error (.execution "JPEG EXIF segment is malformed") := by rfl
  refine ⟨rfl, by rfl, hraises, fun h => ?_⟩
  rw [h.1 rfl 32] at hraises
  cases hraises

end Fetech.Media
