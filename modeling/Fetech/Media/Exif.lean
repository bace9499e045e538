import Fetech.Media

/-! The EXIF reader stays inside its payload and ends (`fetech/adapters/media.py`,
`_extract_exif_metadata`).

An offset is read only if it was not visited before, and only offsets inside of the payload can be
read, so what is left to visit falls with every IFD (`exifLeft`) however the links between them run. -/
namespace Fetech.Media
open Lib Lib.Bytes Lib.Except

/-- An `AdapterExecutionError`. -/
def IsExecution (err : MediaError) : Prop := ∃ message, err = .execution message

theorem isExecution (message : String) : IsExecution (.execution message) := ⟨message, rfl⟩

/-! ### Values -/

section
variable {body tiff : List UInt8} {order : Order} {lo hi : Nat}

theorem slice_eq (h : hi ≤ body.length) : slice body lo hi = .ok (piece body lo hi) := slice_of_le h

theorem number_eq (h : hi ≤ body.length) : number order body lo hi = .ok (toNat order (piece body lo hi)) := by
  rw [number, slice_eq h]
  rfl

/-- The entry at a position. -/
def entryAt (tiff : List UInt8) (order : Order) (position : Nat) : Entry :=
  ⟨toNat order (piece tiff position (position + 2)), toNat order (piece tiff (position + 2) (position + 4)),
    toNat order (piece tiff (position + 4) (position + 8)), piece tiff (position + 8) (position + 12)⟩

theorem readEntry_eq {position : Nat} (h : position + 12 ≤ tiff.length) :
    readEntry tiff order position = .ok (entryAt tiff order position) := by
  rw [readEntry, number_eq (by omega), number_eq (by omega), number_eq (by omega), slice_eq h]
  rfl

/-- **Reading an IFD** is safe, and it is only read inside of the payload. -/
theorem meets_readIfd (tiff : List UInt8) (offset : Nat) (order : Order) :
    Meets (readIfd tiff offset order)
      (fun r => offset < tiff.length ∧ r.1.length ≤ 512 ∧ ∀ entry ∈ r.1, entry.valueField.length = 4) IsExecution := by
  rw [readIfd]
  simp only [meets_bind, meets_require, Bool.and_eq_true, decide_eq_true_eq]
  refine ⟨fun hoffset => ?_, fun _ => isExecution _⟩
  rw [number_eq hoffset.2]
  generalize toNat order (piece tiff offset (offset + 2)) = count
  simp only [meets_ok]
  refine ⟨fun hcount => ⟨fun hend => ?_, fun _ => isExecution _⟩, fun _ => isExecution _⟩
  have hentries : (List.range count).mapM (fun i => readEntry tiff order (offset + 2 + i * 12)) =
      .ok ((List.range count).map fun i => entryAt tiff order (offset + 2 + i * 12)) := by
    refine mapM_of_ok fun i hi => readEntry_eq ?_
    rw [List.mem_range] at hi
    omega
  rw [hentries, number_eq hend]
  simp only [meets_ok, meets_pure, List.length_map, List.length_range, List.forall_mem_map, List.mem_range]
  refine ⟨by omega, hcount, fun i hi => ?_⟩
  have hlength : (piece tiff (offset + 2 + i * 12 + 8) (offset + 2 + i * 12 + 12)).length = 4 := by
    rw [length_piece _ (by omega)]
    omega
  exact hlength

theorem units_eq {size : Nat} {raw : List UInt8} {count : Nat} (hsize : 0 < size) (hlength : raw.length = size * count) :
    units size raw = .ok ((List.range count).map fun i => piece raw (i * size) (i * size + size)) := by
  have hcount : (raw.length + size - 1) / size = count := by
    rw [hlength, Nat.add_sub_assoc hsize, Nat.mul_add_div hsize, Nat.div_eq_of_lt (by omega), Nat.add_zero]
  rw [units, hcount]
  refine mapM_of_ok fun i hi => slice_eq ?_
  rw [List.mem_range] at hi
  rw [hlength]
  calc i * size + size = (i + 1) * size := (Nat.succ_mul i size).symm
    _ ≤ count * size := Nat.mul_le_mul_right size hi
    _ = size * count := Nat.mul_comm count size

theorem exists_boundedText {value : Text} (h : Text.encodable value = true) (maximum : Nat) :
    ∃ t, boundedText value maximum = .ok t := by
  have hclean : Text.encodable (clean value) = true := by
    rw [Text.encodable, List.all_eq_true] at h ⊢
    exact fun c hc => h c (List.mem_of_mem_filter hc)
  rw [boundedText, Utf8.encode, if_pos hclean]
  exact ⟨_, rfl⟩

/-- The bytes of a field are taken apart without a rest. -/
theorem exists_decodeExifValue (order : Order) {fieldType unitSize count : Nat} {raw : List UInt8}
    (hunit : exifTypeSizes.lookup fieldType = some unitSize) (hcount : 0 < count) (hlength : raw.length = unitSize * count) :
    ∃ value, decodeExifValue fieldType count raw order = .ok value := by
  have hpositive : 0 < unitSize ∧ (fieldType = 3 → unitSize = 2) ∧ (fieldType = 4 ∨ fieldType = 9 → unitSize = 4) ∧
      (fieldType = 5 ∨ fieldType = 10 → unitSize = 8) := by
    obtain ⟨before, after, hall, -⟩ := List.lookup_eq_some_iff.mp hunit
    have hmem : (fieldType, unitSize) ∈ exifTypeSizes := hall ▸ List.mem_append_right before List.mem_cons_self
    simp only [exifTypeSizes, List.mem_cons, Prod.mk.injEq, List.not_mem_nil, or_false] at hmem
    omega
  obtain ⟨hpos, htwo, hfour, height⟩ := hpositive
  unfold decodeExifValue
  split
  · obtain ⟨t, ht⟩ := exists_boundedText (Utf8.encodable_decodeReplace (raw.reverse.dropWhile (· = 0)).reverse) 1024
    rw [ht]
    exact ⟨_, rfl⟩
  · split
    · split
      · have hbyte : 0 < raw.length := by
          rw [hlength]
          exact Nat.mul_pos hpos hcount
        rw [byteAt, byteAt_of_lt hbyte]
        exact ⟨_, rfl⟩
      · exact ⟨_, rfl⟩
    · split
      · rw [units_eq (by decide) (htwo ‹_› ▸ hlength)]
        exact ⟨_, rfl⟩
      · split
        · rw [units_eq (by decide) (hfour ‹_› ▸ hlength)]
          exact ⟨_, rfl⟩
        · split
          · rw [units_eq (by decide) (height ‹_› ▸ hlength)]
            exact ⟨_, rfl⟩
          · exact ⟨_, rfl⟩

/-- **Reading a value** is safe. -/
theorem meets_readExifValue (tiff : List UInt8) {entry : Entry} (order : Order) (hfield : entry.valueField.length = 4) :
    Meets (readExifValue tiff entry order) (fun _ => True) IsExecution := by
  unfold readExifValue
  split
  · trivial
  · rename_i unitSize hunit
    split
    · trivial
    · rename_i hcount
      have hpos : 0 < entry.count := by omega
      dsimp only
      split
      · trivial
      · split
        · rename_i hsmall
          have hlength := length_piece 0 (show unitSize * entry.count ≤ entry.valueField.length by omega)
          obtain ⟨value, hvalue⟩ := exists_decodeExifValue order hunit hpos (hlength.trans (Nat.sub_zero _))
          rw [slice_eq (by omega)]
          simp only [meets_bind, meets_ok, hvalue]
        · simp only [meets_bind, meets_require, Bool.and_eq_true, decide_eq_true_eq]
          refine ⟨fun hinside => ?_, fun _ => isExecution _⟩
          have hlength := length_piece (toNat order entry.valueField) hinside.2
          obtain ⟨value, hvalue⟩ := exists_decodeExifValue order hunit hpos
            (hlength.trans (Nat.add_sub_cancel_left _ _))
          rw [slice_eq hinside.2]
          simp only [meets_ok, hvalue]

end

/-! ### The loop over IFDs -/

section
variable {tiff : List UInt8} {order : Order} {maximumFields : Nat} {s : ExifState}

/-- A value that an IFD holds under a tag of that name, which is not sensitive. -/
def Stored (tiff : List UInt8) (order : Order) (name : String) (value : ExifValue) : Prop :=
  ∃ offset entries nextIfd, readIfd tiff offset order = .ok (entries, nextIfd) ∧
    ∃ entry ∈ entries, entry.tag ∉ sensitiveExifTags ∧ exifTags.lookup entry.tag = some name ∧
      readExifValue tiff entry order = .ok (some value)

/-- What holds before each turn: no more fields than allowed, each from where it may be, and the IFDs that
were read are those that were visited, once each. -/
structure ExifInvariant (tiff : List UInt8) (order : Order) (maximumFields : Nat) (s : ExifState) : Prop where
  size : s.fields.size ≤ maximumFields
  stored : ∀ name value, s.fields.get? name = some value → Stored tiff order name value
  reads : s.visited = s.reads.reverse
  nodup : s.visited.Nodup

/-- Of an error, that it is one of the adapter's and no IFD was read twice before. -/
def Failed (err : MediaError) (s : ExifState) : Prop := IsExecution err ∧ s.reads.Nodup

theorem ExifInvariant.failed (h : ExifInvariant tiff order maximumFields s) {err : MediaError} (herr : IsExecution err) :
    Failed err s := by
  have hnodup := h.nodup
  rw [h.reads, List.nodup_reverse] at hnodup
  exact ⟨herr, hnodup⟩

theorem size_set_le (d : Dict String ExifValue) (name : String) (value : ExifValue) : (d.set name value).size ≤ d.size + 1 := by
  have hkeys := congrArg List.length (Dict.keys_put name value d.entries)
  rw [List.length_map] at hkeys
  show (Dict.put name value d.entries).length ≤ d.entries.length + 1
  rw [hkeys]
  split
  · rw [List.length_map]
    omega
  · rw [List.length_append, List.length_map]
    exact Nat.le_refl _

/-- An entry adds a field at most and an offset at most. -/
theorem meets_exifEntry {entry : Entry} {seen : List Nat} {n : Nat} (hs : ExifInvariant tiff order maximumFields s)
    (hseen : s.visited = seen) (hn : s.queue.length ≤ n) (hfield : entry.valueField.length = 4)
    (hentry : ∃ offset entries nextIfd, readIfd tiff offset order = .ok (entries, nextIfd) ∧ entry ∈ entries) :
    (exifEntry tiff order maximumFields entry).Meets s
      (fun _ t => ExifInvariant tiff order maximumFields t ∧ t.visited = seen ∧ t.queue.length ≤ n + 1) Failed := by
  have hsame : ExifInvariant tiff order maximumFields s ∧ s.visited = seen ∧ s.queue.length ≤ n + 1 := ⟨hs, hseen, by omega⟩
  simp only [exifEntry, Program.meets_bind, Program.meets_get, Program.meets_ite, Program.meets_modify, Program.meets_when]
  refine ⟨fun _ => ?_, fun hsensitive => ⟨fun _ => ⟨fun _ => ?_, fun _ => hsame⟩, fun _ => ?_⟩⟩
  · exact ⟨⟨hs.size, hs.stored, hs.reads, hs.nodup⟩, hsame.2⟩
  · refine ⟨⟨hs.size, hs.stored, hs.reads, hs.nodup⟩, hseen, ?_⟩
    rw [List.length_append, List.length_singleton]
    omega
  · cases hname : exifTags.lookup entry.tag with
    | none => exact hsame
    | some name =>
      simp only [Program.meets_ite, Program.meets_bind, Program.meets_pure, Program.meets_ofExcept]
      refine ⟨fun _ => hsame, fun hroom => ⟨fun value hvalue => ?_, fun err herr => ?_⟩⟩
      · cases value with
        | none => exact hsame
        | some value =>
          refine ⟨⟨?_, fun name' value' hget => ?_, hs.reads, hs.nodup⟩, hsame.2⟩
          · have hsize := size_set_le s.fields name value
            show (s.fields.set name value).size ≤ maximumFields
            omega
          · have hget : (s.fields.set name value).get? name' = some value' := hget
            rw [Dict.get?_set] at hget
            split at hget
            · rename_i heq
              cases hget
              obtain ⟨offset, entries, nextIfd, hread, hmem⟩ := hentry
              exact ⟨offset, entries, nextIfd, hread, entry, hmem, hsensitive, heq ▸ hname, hvalue⟩
            · exact hs.stored name' value' hget
      · exact hs.failed ((meets_iff.mp (meets_readExifValue tiff order hfield)).2 err herr)

/-- The offsets that are left are fewer with each that is visited. -/
theorem left_lt {seen : List Nat} {offset : Nat} (hoffset : offset < tiff.length) (hnew : offset ∉ seen) :
    ((List.range tiff.length).filter (· ∉ offset :: seen)).length < ((List.range tiff.length).filter (· ∉ seen)).length := by
  have hsplit : (List.range tiff.length).filter (· ∉ offset :: seen) =
      ((List.range tiff.length).filter (· ∉ seen)).filter (· ≠ offset) := by
    rw [List.filter_filter]
    refine List.filter_congr fun n _ => ?_
    simp [not_or]
  rw [hsplit]
  exact List.length_filter_lt_length_iff_exists.mpr ⟨offset, by simp [hoffset, hnew], by simp⟩

/-- **A turn** keeps what holds before it and leaves less to visit. -/
theorem meets_exifTurn (hs : ExifInvariant tiff order maximumFields s) :
    (exifTurn tiff order maximumFields).Meets s
      (fun more t => if more then ExifInvariant tiff order maximumFields t ∧ exifLeft tiff t < exifLeft tiff s
        else ExifInvariant tiff order maximumFields t) Failed := by
  unfold exifTurn
  rw [Program.meets_bind, Program.meets_get]
  cases hqueue : s.queue with
  | nil => exact hs
  | cons offset queue =>
    simp only [Program.meets_ite, Program.meets_bind, Program.meets_modify, Program.meets_pure, if_true]
    refine ⟨fun _ => by simpa using hs, fun _ => ⟨fun hseen => ?_, fun hnew => ?_⟩⟩
    · refine ⟨⟨hs.size, hs.stored, hs.reads, hs.nodup⟩, ?_⟩
      simp only [exifLeft, hqueue, List.length_cons]
      omega
    · -- An IFD is read, noted as visited before and as read now.
      have hnoted : ExifInvariant tiff order maximumFields {s with
          queue := queue, visited := offset :: s.visited, reads := s.reads ++ [offset]} := by
        refine ⟨hs.size, hs.stored, ?_, List.nodup_cons.mpr ⟨hnew, hs.nodup⟩⟩
        simp [hs.reads]
      simp only [readIfdAt, Program.meets_bind, Program.meets_modify, Program.meets_ofExcept]
      have hread := meets_iff.mp (meets_readIfd tiff offset order)
      refine ⟨fun r hr => ?_, fun err herr => hnoted.failed (hread.2 err herr)⟩
      obtain ⟨hinside, hcount, hfields⟩ := hread.1 r hr
      have hloop : (Program.forEach (exifEntry tiff order maximumFields) r.1).Meets
          {s with queue := queue, visited := offset :: s.visited, reads := s.reads ++ [offset]}
          (fun _ t => (ExifInvariant tiff order maximumFields t ∧ t.visited = offset :: s.visited) ∧
            t.queue.length + ([] : List Entry).length ≤ queue.length + r.1.length ∧ ∀ entry ∈ ([] : List Entry), entry ∈ r.1)
          Failed := by
        refine Program.meets_forEach (I := fun rest t => (ExifInvariant tiff order maximumFields t ∧
          t.visited = offset :: s.visited) ∧ t.queue.length + rest.length ≤ queue.length + r.1.length ∧
            ∀ entry ∈ rest, entry ∈ r.1) ⟨⟨hnoted, rfl⟩, Nat.le_refl _, fun _ => id⟩ fun entry rest t ht => ?_
        obtain ⟨⟨hkept, hseen⟩, hlength, hmem⟩ := ht
        rw [List.forall_mem_cons] at hmem
        refine (meets_exifEntry hkept hseen (Nat.le_refl _) (hfields entry hmem.1) ⟨offset, r.1, r.2, hr, hmem.1⟩).mono
          (fun _ t' ht' => ⟨⟨ht'.1, ht'.2.1⟩, ?_, hmem.2⟩) fun _ _ => id
        have hqueue' := ht'.2.2
        rw [List.length_cons] at hlength
        omega
      have hleft := left_lt hinside hnew
      refine hloop.mono (fun _ t ht => ?_) fun _ _ => id
      obtain ⟨⟨hkept, hseen⟩, hlength, -⟩ := ht
      rw [List.length_nil, Nat.add_zero] at hlength
      simp only [Program.meets_when, Program.meets_bind, Program.meets_get, Program.meets_modify]
      refine ⟨fun _ => ⟨fun _ => ⟨⟨hkept.size, hkept.stored, hkept.reads, hkept.nodup⟩, ?_⟩, fun _ => ⟨hkept, ?_⟩⟩,
        fun _ => ⟨hkept, ?_⟩⟩
      all_goals
        simp only [exifLeft, hqueue, hseen, List.length_cons, List.length_append, List.length_nil]
        omega

/-- **The loop over IFDs** ends, however they link to one another. -/
theorem meets_exifLoop (tiff : List UInt8) (order : Order) (maximumFields firstIfd : Nat) :
    (Program.iterate (exifLeft tiff) .endless (exifTurn tiff order maximumFields)).Meets {queue := [firstIfd]}
      (fun _ => ExifInvariant tiff order maximumFields) Failed := by
  have hstart : ExifInvariant tiff order maximumFields {queue := [firstIfd]} :=
    ⟨Nat.zero_le _, nofun, rfl, List.nodup_nil⟩
  exact Program.meets_iterate hstart fun s hs => meets_exifTurn hs

theorem nodup_reads (tiff : List UInt8) (order : Order) (maximumFields firstIfd : Nat) :
    (exifLoop tiff order maximumFields firstIfd).2.reads.Nodup := by
  refine Program.Meets.state ((meets_exifLoop tiff order maximumFields firstIfd).mono (fun _ s hs => ?_) fun _ s hs => hs.2)
  exact (hs.failed (isExecution "")).2

end

/-! ### The whole reader -/

/-- A turn of the walk over a JPEG raises nothing else and goes on. -/
theorem meets_payloadTurn (body : List UInt8) (s : PayloadWalk) : (payloadTurn body).Meets s
    (fun more t => if more then True ∧ body.length - t.position < body.length - s.position else True)
    fun err _ => IsExecution err := by
  unfold payloadTurn
  simp only [Program.meets_bind, Program.meets_get, Program.meets_ite, Program.meets_modify, Program.meets_pure,
    Program.meets_check, if_true, true_and, byteAt, Program.meets_ofExcept]
  refine ⟨fun hinside => ⟨fun first _ => ⟨fun _ => by omega, fun _ => ⟨fun marker _ => ⟨fun _ => by omega, fun _ =>
    ⟨fun _ => trivial, fun _ => ?_⟩⟩, fun err herr => ?_⟩⟩, fun err herr => ?_⟩, fun _ => trivial⟩
  · rw [number_eq hinside]
    refine ⟨fun length _ => ⟨fun hcheck => ?_, fun _ => isExecution _⟩, fun _ herr => absurd herr.symm error_ne_ok⟩
    rw [Bool.and_eq_true, decide_eq_true_eq, decide_eq_true_eq] at hcheck
    rw [slice_eq hcheck.2]
    exact ⟨fun segment _ => ⟨fun _ => trivial, fun _ => by omega⟩, fun _ herr => absurd herr.symm error_ne_ok⟩
  · rw [byteAt_of_lt (by omega)] at herr
    cases herr
  · rw [byteAt_of_lt (by omega)] at herr
    cases herr

theorem meets_findTiffPayload (body : List UInt8) : Meets (findTiffPayload body) (fun _ => True) IsExecution := by
  unfold findTiffPayload
  split
  · trivial
  · split
    · trivial
    · have hwalk : (Program.iterate (fun s => body.length - s.position) .endless (payloadTurn body)).Meets {}
          (fun _ _ => True) fun err _ => IsExecution err :=
        Program.meets_iterate (I := fun _ => True) trivial fun s _ => meets_payloadTurn body s
      rw [meets_bind, Program.meets_exec]
      exact hwalk.mono (fun _ _ _ => trivial) fun _ _ => id

theorem meets_extractPayload (tiff : List UInt8) (maximumFields : Nat) : Meets (extractPayload tiff maximumFields)
    (fun metadata => metadata.fields.size ≤ maximumFields ∧
      ∀ name value, metadata.fields.get? name = some value → Stored tiff (byteOrder tiff) name value) IsExecution := by
  unfold extractPayload
  simp only [meets_bind, meets_require, Bool.and_eq_true, decide_eq_true_eq]
  refine ⟨fun hheader => ?_, fun _ => isExecution _⟩
  rw [number_eq (by omega), number_eq (by omega)]
  refine ⟨fun _ => ?_, fun _ => isExecution _⟩
  simp only [meets_ok]
  have hloop := meets_exifLoop tiff (byteOrder tiff) maximumFields (toNat (byteOrder tiff) (piece tiff 4 8))
  unfold Program.Meets at hloop
  unfold exifLoop
  split
  · rename_i err s hs
    rw [hs] at hloop
    exact hloop.1
  · rename_i s hs
    rw [hs] at hloop
    exact ⟨hloop.size, hloop.stored⟩

/-- **The EXIF reader is safe**: it returns or raises an error of the adapter, gives no more fields than
allowed, each from an entry whose tag is not sensitive, and reads no IFD twice. Neither reading
outside of the payload nor a loop without end is among what it raises. -/
theorem extractExifMetadata_safe (body : List UInt8) (maximumFields : Nat) :
    (∀ metadata, extractExifMetadata body maximumFields = .ok metadata → metadata.fields.size ≤ maximumFields ∧
      ∀ name value, metadata.fields.get? name = some value →
        ∃ tiff, findTiffPayload body = .ok (some tiff) ∧ Stored tiff (byteOrder tiff) name value) ∧
    (∀ err, extractExifMetadata body maximumFields = .error err → ∃ message, err = .execution message) ∧
    ∀ tiff order firstIfd, (exifLoop tiff order maximumFields firstIfd).2.reads.Nodup := by
  rw [← and_assoc, ← meets_iff (E := fun err => ∃ message, err = MediaError.execution message)]
  refine ⟨?_, fun tiff order firstIfd => nodup_reads tiff order maximumFields firstIfd⟩
  unfold extractExifMetadata
  have hfind := meets_iff.mp (meets_findTiffPayload body)
  rw [meets_bind, meets_iff]
  refine ⟨fun payload hpayload => ?_, hfind.2⟩
  cases payload with
  | none => exact ⟨Nat.zero_le _, nofun⟩
  | some tiff =>
    refine meets_mono (meets_extractPayload tiff maximumFields) (fun metadata h => ⟨h.1, fun name value hget => ?_⟩) fun _ => id
    exact ⟨tiff, hpayload, h.2 name value hget⟩

end Fetech.Media
