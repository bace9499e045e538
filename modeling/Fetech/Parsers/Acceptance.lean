import Fetech.Lib.JsonEncoding
import Fetech.Parsers.Routing
import Fetech.Parsers.Xml

/-! What the parent takes from the worker (`fetech/adapters/documents.py`, `fetech/document_worker.py`).

The worker reads the request that the parent wrote, and parses the body as the parent itself would,
although it does not know the target. So what comes of a body is its parse, if the answer can be
written and is within the limits of the parent (`verdict`). -/
namespace Fetech.Parsers
open Lib Lib.Except Archive JsonText

variable {φ : Type} (l : DocumentLibrary φ)

/-! ### The request -/

section
variable {capability : String} {path : Text} {body : List UInt8} {limits : DocumentLimits}

theorem positiveInt_natCast {n : Nat} (h : 0 < n) : positiveInt (φ := φ) (some (.int n)) = .ok n := by
  have hpos : (0 : Int) < n := Int.natCast_pos.mpr h
  rw [positiveInt, if_pos hpos, Int.toNat_natCast]

/-- A ratio that is a floating-point number. -/
structure IsFloat (ratio : ℚ) : Prop where
  finite : l.floats.isFinite (l.ofRatio ratio) = true
  toRatio : l.toRatio (l.ofRatio ratio) = ratio

theorem parseLimits_limitFields (hratio : IsFloat l limits.maximumArchiveRatio) :
    parseLimits l (.object (named (limitFields l limits))) = .ok limits := by
  have hpositive := limits.positive
  obtain ⟨hinput, houtput, hblocks, hdepth, hmembers, -⟩ := limits.positive
  have hkeys : JsonValue.hasKeys (named (limitFields l limits)) ["maximum_input_bytes", "maximum_output_bytes", "maximum_blocks",
      "maximum_depth", "maximum_archive_members", "maximum_archive_ratio"] = true := by
    rw [hasKeys_named]
    rfl
  have hfield : ∀ (key : String) (n : Nat), 0 < n → (limitFields l limits).lookup key = some (.int n) →
      positiveInt (JsonValue.get? (named (limitFields l limits)) key) = .ok n := by
    intro key n hn hlookup
    rw [get?_named, hlookup, positiveInt_natCast hn]
  have hfloat : JsonValue.get? (named (limitFields l limits)) "maximum_archive_ratio" =
      some (.float (l.ofRatio limits.maximumArchiveRatio)) := get?_named _ _
  simp only [parseLimits, hkeys, hfloat, hfield "maximum_input_bytes" _ hinput rfl, hfield "maximum_output_bytes" _ houtput rfl,
    hfield "maximum_blocks" _ hblocks rfl, hfield "maximum_depth" _ hdepth rfl,
    hfield "maximum_archive_members" _ hmembers rfl, hratio.finite, hratio.toRatio, if_true, require, bind, Except.bind, pure,
    Except.pure, dif_pos hpositive]

theorem find?_ofString {names : List String} (h : names.contains capability = true) :
    names.find? (fun name => Text.ofString name = Text.ofString capability) = some capability := by
  have hmem := List.contains_iff_mem.mp h
  cases hfind : names.find? (fun name => Text.ofString name = Text.ofString capability) with
  | none => exact absurd (decide_eq_true rfl) (List.find?_eq_none.mp hfind capability hmem)
  | some name =>
    have hsame : Text.ofString name = Text.ofString capability := by simpa using List.find?_some hfind
    rw [Text.ofString_inj hsame]

/-- What the worker may be told of a target. -/
structure IsHint (path : Text) : Prop where
  size : ∃ size ≤ 8192, path.utf8Length? = some size
  plain : 0 ∉ path

theorem validatePayload_documentRequest (hcapability : documentCapabilities.contains capability = true) (hpath : IsHint path)
    (hbody : body.length ≤ limits.maximumInputBytes) (hratio : IsFloat l limits.maximumArchiveRatio) :
    validatePayload l (documentRequest l capability path body limits) = .ok ⟨capability, path, body, limits⟩ := by
  obtain ⟨size, hle, hsize⟩ := hpath.size
  have hplain : path.contains 0 = false := by simpa using hpath.plain
  have hkeys : JsonValue.hasKeys (named (requestFields l capability path body limits))
      ["body", "capability", "docling", "limits", "target_path"] = true := by
    rw [hasKeys_named]
    rfl
  have hfield : ∀ key, JsonValue.get? (named (requestFields l capability path body limits)) key =
      (requestFields l capability path body limits).lookup key := get?_named _
  have hname : JsonValue.get? (named (requestFields l capability path body limits)) "capability" =
      some (.string (Text.ofString capability)) := hfield _
  have hpath : JsonValue.get? (named (requestFields l capability path body limits)) "target_path" = some (.string path) := hfield _
  have hencoded : JsonValue.get? (named (requestFields l capability path body limits)) "body" =
      some (.string (Base64.encode body)) := hfield _
  have hlimits : JsonValue.get? (named (requestFields l capability path body limits)) "limits" =
      some (.object (named (limitFields l limits))) := hfield _
  have hdocling : JsonValue.get? (named (requestFields l capability path body limits)) "docling" = some .null := hfield _
  simp only [validatePayload, documentRequest, hkeys, hname, hpath, hencoded, hlimits, hdocling, find?_ofString hcapability, hsize,
    hplain, hle, hbody, Base64.decode_encode, parseLimits_limitFields l hratio, Option.getD_some, ofOption, require, decide_true,
    Bool.not_false, Bool.and_self, if_true, bind, Except.bind, pure, Except.pure]

theorem hasUniqueKeys_documentRequest : (documentRequest l capability path body limits).HasUniqueKeys := by
  have hlimits : (JsonValue.object (named (limitFields l limits))).HasUniqueKeys := by
    apply hasUniqueKeys_named
    · simp only [limitFields, List.map_cons, List.map_nil]
      decide
    · simp only [limitFields, List.forall_mem_cons, List.not_mem_nil, false_implies, implies_true, and_true]
      exact ⟨rfl, rfl, rfl, rfl, rfl, rfl⟩
  apply hasUniqueKeys_named
  · simp only [requestFields, List.map_cons, List.map_nil]
    decide
  · simp only [requestFields, List.forall_mem_cons, List.not_mem_nil, false_implies, implies_true, and_true]
    exact ⟨rfl, rfl, rfl, hlimits, rfl⟩

/-- A dictionary with names for keys has strings that can be encoded if its values have. -/
theorem encodable_named {fields : List (String × JsonValue φ)}
    (hfields : ∀ field ∈ fields, JsonValue.every encodableHere field.2 = true) :
    JsonValue.every encodableHere (.object (named fields)) = true := by
  refine (JsonValue.every_object _).mpr ⟨List.all_eq_true.mpr fun field hfield => ?_, fun field hfield => ?_⟩
  · obtain ⟨field', -, rfl⟩ := List.mem_map.mp hfield
    exact Text.encodable_ofString field'.1
  · obtain ⟨field', hfield', rfl⟩ := List.mem_map.mp hfield
    exact hfields field' hfield'

theorem encodable_documentRequest (hpath : IsHint path) :
    JsonValue.every encodableHere (documentRequest l capability path body limits) = true := by
  obtain ⟨size, -, hsize⟩ := hpath.size
  have hpath : Text.encodable path = true := by
    unfold Text.utf8Length? at hsize
    split at hsize
    · assumption
    · cases hsize
  have hlimits : JsonValue.every encodableHere (.object (named (limitFields l limits))) = true := by
    apply encodable_named
    simp only [limitFields, List.forall_mem_cons, List.not_mem_nil, false_implies, implies_true, and_true]
    exact ⟨rfl, rfl, rfl, rfl, rfl, rfl⟩
  apply encodable_named
  simp only [requestFields, List.forall_mem_cons, List.not_mem_nil, false_implies, implies_true, and_true]
  exact ⟨Text.encodable_ofString capability, hpath, Base64.encodable_encode body, hlimits, rfl⟩

/-- **The worker reads the request** that the parent wrote. -/
theorem readPayload_encodeRequest (hpath : IsHint path) {stdin : List UInt8}
    (hstdin : encodeRequest l (documentRequest l capability path body limits) = some stdin)
    (hlength : stdin.length ≤ maximumWorkerStdin) :
    readPayload l stdin = .ok (documentRequest l capability path body limits) := by
  unfold encodeRequest at hstdin
  split at hstdin
  · rename_i hw
    have hdecode : decodeJson l.otherEncodings stdin = some (write l.floats true (documentRequest l capability path body limits)) :=
      decodeJson_write (List.cons_ne_nil _ _) hstdin
    have hfit : (documentRequest l capability path body limits).fitsIn
        (l.recursionLimit (write l.floats true (documentRequest l capability path body limits))) = true :=
      JsonValue.fitsIn_mono (l.shallow _) rfl
    have hloads : loads l.floats (readerHooks fun _ => none)
        (l.recursionLimit (write l.floats true (documentRequest l capability path body limits)))
        (write l.floats true (documentRequest l capability path body limits)) = some (documentRequest l capability path body limits) :=
      loads_write readerHooks_object hfit hw (fun _ => encodable_documentRequest l hpath) (hasUniqueKeys_documentRequest l)
    simp only [readPayload, hlength, decide_true, hdecode, hloads, ofOption, require, if_true, bind, Except.bind]
  · cases hstdin

end

/-! ### What is parsed -/

/-- Both sides parse alike: no more of a target is looked at than the worker is told. -/
theorem parse_targetPath {target : List Char} {path : Text} (h : targetPath l.formats target = some path) (observed : String)
    (body : List UInt8) (limits : DocumentLimits) :
    parse l observed body (charsOf path) limits = parse l observed body target limits := by
  obtain ⟨format, hformat, hworker⟩ := detectDocumentFormat_targetPath h body
  unfold parse
  rw [hformat, hworker]

/-- The formats that are detected. -/
def detectedFormats : List String :=
  ["pdf", "docx", "pptx", "xlsx", "zip_archive", "markdown", "txt", "csv", "json_file", "xml_file", "dataset_file"]

theorem formatFor_mem {table : List (String × String)} {suffix : Text} {format : String}
    (h : formatFor table suffix = some format) : format ∈ table.map Prod.snd := by
  obtain ⟨entry, hentry, rfl⟩ := Option.map_eq_some_iff.mp h
  exact List.mem_map_of_mem (List.mem_of_find?_eq_some hentry)

theorem formatOf_mem (suffix : Text) (body : List UInt8) : formatOf l.formats suffix body ∈ detectedFormats := by
  unfold formatOf
  split
  · decide
  split
  · cases hformat : formatFor containerFormats suffix with
    | none =>
      rw [Option.getD_none]
      decide
    | some format =>
      have hall : containerFormats.map Prod.snd ⊆ detectedFormats := by decide
      exact hall (formatFor_mem hformat)
  split
  · decide
  split
  · decide
  cases hformat : formatFor suffixFormats suffix with
  | some format =>
    have hall : suffixFormats.map Prod.snd ⊆ detectedFormats := by decide
    exact hall (formatFor_mem hformat)
  | none =>
    dsimp only
    split
    · split <;> decide
    split
    · decide
    split <;> decide

section
variable {capability observed : String} {target : List Char} {body : List UInt8} {limits : DocumentLimits}

/-- What is observed of a document is a format of its own, one that the bytes or the target have, or a
pointer to a file elsewhere. -/
theorem observed_cases (hcapability : documentCapabilities.contains capability = true)
    (hobserved : detectCapability l.formats capability target body = some observed) :
    observed ∈ ["csv", "txt", "markdown", "json_file", "xml_file", "zip_archive"] ∨ observed ∈ engineCapabilities ∨
      observed = "dataset_file" ∧ detectDocumentFormat l.formats target body = some "dataset_file" ∨
      observed = "git_lfs" ∧ isGitLfsPointer body = true := by
  unfold detectCapability at hobserved
  split at hobserved
  · rename_i hrouted
    cases hobserved
    have hall : ∀ name ∈ documentCapabilities, routedCapabilities.contains name = false →
        name ∈ ["csv", "txt", "markdown", "json_file", "xml_file", "zip_archive"] ∨ name ∈ engineCapabilities := by decide
    obtain hplain | hengine := hall capability (List.contains_iff_mem.mp hcapability) (by simpa using hrouted)
    · exact .inl hplain
    · exact .inr (.inl hengine)
  · split at hobserved
    · rename_i hpointer
      cases hobserved
      exact .inr (.inr (.inr ⟨rfl, (Bool.and_eq_true_iff.mp hpointer).2⟩))
    · obtain ⟨parts, -, hformat⟩ := Option.bind_eq_some_iff.mp hobserved
      cases hformat
      have hall : ∀ name ∈ detectedFormats, name ∈ ["csv", "txt", "markdown", "json_file", "xml_file", "zip_archive"] ∨
          name ∈ engineCapabilities ∨ name = "dataset_file" := by decide
      obtain hplain | hengine | hdataset := hall _ (formatOf_mem l _ body)
      · exact .inl hplain
      · exact .inr (.inl hengine)
      · exact .inr (.inr (.inl ⟨hdataset, hdataset ▸ hobserved⟩))

/-- **What the worker parses on its own is wellmade.** -/
theorem wellmade_parse (hcapability : documentCapabilities.contains capability = true)
    (hobserved : detectCapability l.formats capability target body = some observed)
    (hown : engineCapabilities.contains observed = false) {parsed : Parsed φ}
    (h : parse l observed body target limits = .ok parsed) : Wellmade l.floats observed parsed := by
  obtain hplain | hengine | ⟨rfl, hformat⟩ | ⟨rfl, hpointer⟩ := observed_cases l hcapability hobserved
  · have hparser : ∀ (name : String) (parser : Except ArchiveError (Parsed φ)), parse l name body target limits =
        (require (body.length ≤ limits.maximumInputBytes) (.value "document body exceeds the parser byte limit") >>=
          fun _ => parser) → parse l name body target limits = .ok parsed → parser = .ok parsed := by
      intro name parser hparse hok
      rw [hparse, bind_eq_ok] at hok
      exact hok.choose_spec.2
    simp only [List.mem_cons, List.not_mem_nil, or_false] at hplain
    obtain rfl | rfl | rfl | rfl | rfl | rfl := hplain
    · exact (wellmade_csv l (hparser "csv" _ rfl h)).1
    · exact (wellmade_text (.inl rfl) (hparser "txt" _ rfl h)).1
    · exact (wellmade_text (.inr rfl) (hparser "markdown" _ rfl h)).1
    · exact (wellmade_json l.toInterpreter (hparser "json_file" _ rfl h)).1
    · exact (wellmade_xml l (hparser "xml_file" _ rfl h)).1
    · exact wellmade_zip l (hparser "zip_archive" _ rfl h)
  · rw [List.contains_iff_mem.mpr hengine] at hown
    cases hown
  · unfold parse at h
    rw [hformat, bind_eq_ok] at h
    obtain ⟨_, -, hdataset⟩ := h
    cases hdataset
    exact (wellmade_dataset l body limits).1
  · unfold parse at h
    rw [hpointer, bind_eq_ok] at h
    obtain ⟨_, -, hfailed⟩ := h
    cases hfailed

end

/-! ### The verdict -/

/-- The failure that the worker reports. -/
def failedDocument : Block φ := named [("error", .string (Text.ofString "parse_failed"))]

theorem encode_failedDocument (f : Floats φ) : encodeDocument f (.object failedDocument) =
    some (ascii "\x7b\"error\":\"parse_failed\"\x7d") := by
  have hwritten : isWritable f (.object failedDocument) = true := by
    simp [isWritable, failedDocument, named, JsonValue.every, JsonValue.everyField, writableHere]
  have htext : write f false (sortKeys (.object failedDocument)) = Text.ofString "\x7b\"error\":\"parse_failed\"\x7d" := by
    simp only [failedDocument, named, List.map_cons, List.map_nil, sortKeys, sortFields, List.insertionSort_cons,
      List.insertionSort_nil, List.orderedInsert_nil, write, writeFields, List.intercalate_singleton]
    decide +kernel
  rw [encodeDocument, dumps, if_pos hwritten, htext]
  decide +kernel

/-- What the parent raises when the worker could not parse. -/
def failureOf (err : ArchiveError) : ArchiveError :=
  if err = .library "ImportError" then
    .execution "document parsing requires the matching fetech[documents] dependency or configured connector"
  else .execution "bounded document parsing failed"

/-- What comes of a body that was parsed. -/
def verdict (limits : DocumentLimits) (observed : String) (parsed : Parsed φ) : Except ArchiveError (DocumentParseResult φ) := do
  let answer ← ofOption (.execution "bounded document parsing failed")
    (encodeDocument l.floats (.object (workerAnswer observed parsed)))
  require (answer.length ≤ min 100000000 (limits.maximumOutputBytes + 65536)) (.execution "bounded document parse process failed")
  require (parsed.blocks.length ≤ limits.maximumBlocks) (.execution "document worker returned invalid blocks")
  let document ← ofOption (.execution "document worker returned a non-serializable document")
    (encodeDocument l.floats (.object (documentOf parsed)))
  require (document.length ≤ limits.maximumOutputBytes) (.execution "document worker exceeded the decompressed-byte budget")
  return resultOf observed parsed

theorem receive_failed (limits : DocumentLimits) (expected : String) (err : ArchiveError) :
    receive l limits expected (if err = .library "ImportError" then
      ⟨2, ascii "\x7b\"error\":\"dependency_missing\",\"dependency\":\"unknown\"\x7d"⟩
      else ⟨1, ascii "\x7b\"error\":\"parse_failed\"\x7d"⟩) = .error (failureOf err) := by
  unfold receive failureOf
  by_cases himport : err = .library "ImportError"
  · have hlength : (ascii "\x7b\"error\":\"dependency_missing\",\"dependency\":\"unknown\"\x7d").length = 53 := by decide
    have hle : 53 ≤ min 100000000 (limits.maximumOutputBytes + 65536) := by omega
    simp only [himport, if_true, hlength, hle, decide_true, require, bind, Except.bind]
    rfl
  · have hlength : (ascii "\x7b\"error\":\"parse_failed\"\x7d").length = 24 := by decide
    have hle : 24 ≤ min 100000000 (limits.maximumOutputBytes + 65536) := by omega
    have hunique : (JsonValue.object (failedDocument (φ := φ))).HasUniqueKeys :=
      hasUniqueKeys_named (List.nodup_singleton _) (List.forall_mem_singleton.mpr rfl)
    have hstdout : encodeDocument l.toReaderLibrary.floats (.object failedDocument) = _ := encode_failedDocument l.floats
    obtain ⟨text, hdecode, hne, hloads⟩ := read_object (List.cons_ne_nil _ _) rfl hunique hstdout
    have hempty : (ascii "\x7b\"error\":\"parse_failed\"\x7d").isEmpty = false := rfl
    simp only [himport, if_false, hlength, hle, decide_true, hempty, hdecode, hloads, ofOption, require, bind, Except.bind, if_true]
    rfl

/-- **The parent's verdict on an answer** is that on what was parsed. -/
theorem receive_answer {limits : DocumentLimits} {observed : String} {parsed : Parsed φ} (hwellmade : Wellmade l.floats observed parsed)
    (hpdf : isPdf (Text.ofString observed) = false) {stdout : List UInt8}
    (hstdout : encodeDocument l.floats (.object (workerAnswer observed parsed)) = some stdout) :
    receive l limits observed ⟨0, stdout⟩ = verdict l limits observed parsed := by
  obtain ⟨hw, hencodable⟩ := exists_encode_iff.mp ⟨stdout, hstdout⟩
  have hdocument := written_document hw
  have hfield : (Text.ofString "document", JsonValue.object (documentOf parsed)) ∈ workerAnswer observed parsed :=
    List.mem_cons_of_mem _ List.mem_cons_self
  obtain ⟨document, hencoded⟩ := exists_encode_iff.mpr ⟨hdocument, ((JsonValue.every_object _).mp hencodable).2 _ hfield⟩
  have hread : encodeDocument l.toReaderLibrary.floats (.object (workerAnswer observed parsed)) = some stdout := hstdout
  have hsome : workerAnswer observed parsed ≠ [] := List.cons_ne_nil _ _
  obtain ⟨text, hdecode, hne, hloads⟩ := read_object hsome
    (hwellmade.fitsIn_workerAnswer (written_blocks hdocument)) hwellmade.hasUniqueKeys_workerAnswer hread
  have hempty : stdout.isEmpty = false := by simpa using hne
  have hcode : decide ((0 : Nat) ≠ 2) = true := rfl
  unfold receive verdict
  rw [hstdout, hencoded]
  by_cases hle : stdout.length ≤ min 100000000 (limits.maximumOutputBytes + 65536)
  · simp only [hle, hcode, hempty, hdecode, hloads, decide_true, ofOption, require, bind, Except.bind, if_true, Bool.not_false,
      validate_answer hwellmade hpdf hdocument hencoded]
    by_cases hcount : limits.maximumBlocks < parsed.blocks.length
    · simp only [hcount, if_true, Nat.not_le.mpr hcount, decide_false, Bool.false_eq_true, if_false]
    · simp only [hcount, if_false, Nat.not_lt.mp hcount, decide_true, if_true]
      by_cases hsize : document.length ≤ limits.maximumOutputBytes
      · simp only [hsize, if_true, decide_true]
        rfl
      · simp only [hsize, if_false, decide_false, Bool.false_eq_true]
  · simp only [hle, decide_false, ofOption, require, bind, Except.bind, Bool.false_eq_true, if_false]

section
variable {capability observed : String} {target : List Char} {body stdin : List UInt8} {limits : DocumentLimits} {path : Text}

/-- **The worker parses as its parent would**: it reads the request, and observes the same format. -/
theorem answerRequest_eq (hcapability : documentCapabilities.contains capability = true)
    (hbody : body.length ≤ limits.maximumInputBytes) (hobserved : detectCapability l.formats capability target body = some observed)
    (htarget : targetPath l.formats target = some path) (hpath : IsHint path) (hratio : IsFloat l limits.maximumArchiveRatio)
    (hstdin : encodeRequest l (documentRequest l capability path body limits) = some stdin)
    (hlength : stdin.length ≤ maximumWorkerStdin) :
    answerRequest l stdin = (parse l observed body target limits).map fun parsed => (observed, parsed) := by
  have hworker : detectCapability l.formats capability (charsOf path) body = some observed := by
    obtain ⟨format, hformat, hsame⟩ := detectDocumentFormat_targetPath htarget body
    rw [← hobserved, detectCapability, detectCapability, hformat, hsame]
  simp only [answerRequest, readPayload_encodeRequest l hpath hstdin hlength,
    validatePayload_documentRequest l hcapability hpath hbody hratio, hworker, ofOption, bind, Except.bind,
    parse_targetPath l htarget]
  cases parse l observed body target limits with
  | error err => rfl
  | ok parsed => rfl

/-- Where no text of an answer has a surrogate that stands for a byte, standard output is UTF-8. -/
theorem writeStdout_answer {observed : String} {parsed : Parsed φ}
    (hplain : l.escapes = true → ∀ text, dumps l.floats false (.object (workerAnswer observed parsed)) = some text →
      ∀ c ∈ text, Utf8.isEscape c = false) :
    (dumps l.floats false (.object (workerAnswer observed parsed))).bind (writeStdout l) =
      encodeDocument l.floats (.object (workerAnswer observed parsed)) := by
  rw [encodeDocument]
  refine Option.bind_congr fun text htext => ?_
  rw [writeStdout]
  split
  · rename_i hescapes
    exact Utf8.encodeSurrogateEscape_eq (hplain hescapes text htext)
  · rfl

/-- **What comes of a document**: it is what its parser makes of it, unless the answer or the document is
too long; and whatever goes wrong in the worker is one failure. -/
theorem parseInWorker_eq (hcapability : documentCapabilities.contains capability = true)
    (hbody : body.length ≤ limits.maximumInputBytes) (hobserved : detectCapability l.formats capability target body = some observed)
    (hown : engineCapabilities.contains observed = false) (htarget : targetPath l.formats target = some path)
    (hpath : IsHint path) (hratio : IsFloat l limits.maximumArchiveRatio)
    (hstdin : encodeRequest l (documentRequest l capability path body limits) = some stdin)
    (hlength : stdin.length ≤ maximumWorkerStdin)
    (hplain : l.escapes = true → ∀ parsed, parse l observed body target limits = .ok parsed →
      ∀ text, dumps l.floats false (.object (workerAnswer observed parsed)) = some text → ∀ c ∈ text, Utf8.isEscape c = false) :
    parseInWorker l capability body target limits =
      (parse l observed body target limits).mapError failureOf >>= verdict l limits observed := by
  have hanswer := answerRequest_eq l hcapability hbody hobserved htarget hpath hratio hstdin hlength
  have hpdf : isPdf (Text.ofString observed) = false := by
    have hsub : ∀ name ∈ ["pdf", "scanned_pdf"], engineCapabilities.contains name = true := by decide
    rw [isPdf, any_ofString, Bool.eq_false_iff]
    intro hmem
    exact Bool.eq_false_iff.mp hown (hsub observed (List.contains_iff_mem.mp hmem))
  simp only [parseInWorker, hcapability, hbody, hobserved, htarget, hstdin, decide_true, require, ofOption, if_true, bind, Except.bind]
  cases hparse : parse l observed body target limits with
  | error err =>
    rw [hparse] at hanswer
    simp only [documentWorker, hanswer, Except.map, bind, Except.bind, Except.mapError, receive_failed]
  | ok parsed =>
    rw [hparse] at hanswer
    have hwellmade := wellmade_parse l hcapability hobserved hown hparse
    have hwritten := writeStdout_answer l fun hescapes => hplain hescapes parsed hparse
    cases hstdout : encodeDocument l.floats (.object (workerAnswer observed parsed)) with
    | none =>
      simp only [documentWorker, hanswer, Except.map, hwritten, hstdout, ofOption, bind, Except.bind, Except.mapError,
        receive_failed, verdict]
      rfl
    | some stdout =>
      simp only [documentWorker, hanswer, Except.map, hwritten, hstdout, ofOption, bind, Except.bind, Except.mapError,
        receive_answer l hwellmade hpdf hstdout]

end

/-! ### A table -/

theorem floatText_hundred : FloatText (Text.ofString "100.0") where
  shape := by
    have hdigits : ∀ s : String, (Text.ofString s ≠ [] ∧ (Text.ofString s).all isDigit = true) → Digits (Text.ofString s) :=
      fun s h => ⟨h.1, List.all_eq_true.mp h.2⟩
    exact ⟨[], Text.ofString "100", Text.ofString ".0", [], by decide, .inl rfl, ⟨hdigits "100" (by decide), by decide⟩,
      .inr ⟨Text.ofString "0", hdigits "0" (by decide), by decide⟩, .inl rfl, .inl (by decide)⟩

/-- A platform whose only number is 100. -/
def hundredFloats : Floats Unit where
  isFinite _ := true
  repr _ := Text.ofString "100.0"
  ofText _ := ()
  floatText _ _ := floatText_hundred
  ofText_repr _ _ := rfl

def zeroDigest : String := "0000000000000000000000000000000000000000000000000000000000000000"

theorem isDigest_zeroDigest : Storage.isDigest zeroDigest = true := by decide +kernel

/-- Rows between line feeds and cells between commas. -/
def plainRows (s : Text) : List (List Text) := ((s.splitOn 0x0a).filter (!·.isEmpty)).map fun row => row.splitOn comma

theorem no_element (root : Element) (h : (.error (.library "ParseError") : Except ArchiveError Element) = .ok root) :
    root.WellFormed := absurd h error_ne_ok

def noArchives : ArchiveReader where
  tables := ⟨id, id⟩
  isZipfile _ := false
  zip _ := .error (.library "BadZipFile")
  tar _ := .error (.library "ReadError")
  quotient a b := a / b

def tableLibrary : DocumentLibrary Unit where
  floats := hundredFloats
  recursionLimit _ := 1000
  shallow := shallow_thousand
  container _ := []
  constant _ := none
  otherEncodings _ := none
  formats := plainFormats
  archive := noArchives
  hash := ⟨fun _ => zeroDigest, fun _ => isDigest_zeroDigest⟩
  csv s := (plainRows s, none)
  xml _ := .error (.library "ParseError")
  engine _ _ _ := .error (.library "ImportError")
  ofRatio _ := ()
  toRatio _ := 100
  escapes := true
  xml_wellFormed _ := no_element

def tableLimits : DocumentLimits := {}

def tableTarget : List Char := "https://raw.githubusercontent.com/o/r/v1/A.CSV".toList

def tableBody : List UInt8 := ascii "name,size\na,1\n"

theorem parseInWorker_eq_table : parseInWorker tableLibrary "github_raw" tableBody tableTarget tableLimits =
    (parse tableLibrary "csv" tableBody tableTarget tableLimits).mapError failureOf >>= verdict tableLibrary tableLimits "csv" := by
  have hpath : IsHint (Text.ofString "file.CSV") := ⟨⟨8, by decide, by decide +kernel⟩, by decide +kernel⟩
  have hwritten : (encodeRequest tableLibrary
      (documentRequest tableLibrary "github_raw" (Text.ofString "file.CSV") tableBody tableLimits)).any
        (fun stdin => stdin.length ≤ maximumWorkerStdin) = true := by decide +kernel
  obtain ⟨stdin, hstdin, hlength⟩ := (Option.any_eq_true _ _).mp hwritten
  have hplain : ((parse tableLibrary "csv" tableBody tableTarget tableLimits).toOption.bind fun parsed =>
      dumps tableLibrary.floats false (.object (workerAnswer "csv" parsed))).all (fun text => text.all (!Utf8.isEscape ·)) = true := by
    decide +kernel
  refine parseInWorker_eq tableLibrary (by decide) (by decide) (by decide +kernel) (by decide) (by decide +kernel) hpath
    ⟨rfl, rfl⟩ hstdin (of_decide_eq_true hlength) fun _ parsed hparsed text htext c hc => ?_
  rw [hparsed, Except.toOption, Option.bind_some, htext, Option.all_some, List.all_eq_true] at hplain
  exact Bool.not_eq_true' _ ▸ hplain c hc

end Fetech.Parsers
