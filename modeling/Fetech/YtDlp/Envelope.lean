import Fetech.YtDlp.Canonical

/-! What comes of the output of a worker.

Whatever is printed, the decoder returns a response within its limits, about the video that was asked
for, or raises an `AdapterExecutionError`, but for two kinds of output: one in which lists or objects
stand in one another deeper than the interpreter can read, and a failure whose code is a list or an
object, which cannot be looked up in a set (`decodeWorkerEnvelope_sound_iff`). -/
namespace Fetech.YtDlp
open Lib Lib.Url Lib.Except

/-! ### What projections raise -/

/-- An exception that is reported as an invalid result. -/
def Translated (raised : Raised) : Prop := raised.isTranslated = true

theorem translated_execution (message : String) : Translated (.execution message) := rfl

theorem translated_value : Translated .valueError := rfl

section
variable {φ : Type} {isBounded : φ → Bool}

theorem meets_boundedText (value : Text) (maximum : Nat) :
    Meets (boundedText value maximum) (fun _ => True) Translated := by
  rw [boundedText]
  simp only [meets_bind, meets_ofOption, meets_pure]
  exact ⟨fun _ _ => trivial, fun _ => translated_value⟩

theorem meets_safeScalar (maximum : Nat) (value : JsonValue φ) :
    Meets (safeScalar isBounded maximum value) (fun _ => True) Translated := by
  cases value with
  | string s =>
    rw [safeScalar, meets_bind]
    apply meets_mono (meets_boundedText s maximum)
    · exact fun _ _ => trivial
    · exact fun _ => id
  | _ => trivial

theorem meets_safeFields (document : List (Text × JsonValue φ)) (keys : List (String × Nat)) :
    Meets (safeFields isBounded document keys) (fun _ => True) Translated := by
  rw [safeFields, meets_bind]
  have hturns : ∀ entry ∈ keys, Meets (do
      let value ← safeScalar isBounded entry.2 ((JsonValue.get? document entry.1).getD .null)
      pure (value.map fun v => (Text.ofString entry.1, v))) (fun _ => True) Translated := by
    intro entry hentry
    rw [meets_bind]
    apply meets_mono (meets_safeScalar entry.2 _)
    · exact fun _ _ => trivial
    · exact fun _ => id
  apply meets_mono (meets_mapM hturns)
  · exact fun _ _ => trivial
  · exact fun _ => id

theorem meets_projectList (document : List (Text × JsonValue φ)) (key : String) :
    Meets (projectList isBounded document key) (fun _ => True) Translated := by
  unfold projectList
  split
  · rw [meets_bind]
    apply meets_mono (meets_mapM fun value hvalue => meets_safeScalar 256 value)
    · exact fun _ _ => trivial
    · exact fun _ => id
  · trivial

theorem meets_projectChapters (document : List (Text × JsonValue φ)) :
    Meets (projectChapters isBounded document) (fun _ => True) Translated := by
  unfold projectChapters
  split
  · dsimp only
    rw [meets_bind]
    apply meets_mono (meets_mapM fun fields hfields => meets_safeFields fields _)
    · exact fun _ _ => trivial
    · exact fun _ => id
  · trivial

theorem meets_projectLanguages (document : List (Text × JsonValue φ)) (key : String) :
    Meets (projectLanguages document key) (fun _ => True) Translated := by
  unfold projectLanguages
  split
  · rw [meets_bind]
    apply meets_mono (meets_mapM fun caption hcaption => meets_boundedText caption.1 64)
    · exact fun _ _ => trivial
    · exact fun _ => id
  · trivial

end

variable {c : Codecs}

theorem meets_readPath (host path : List Char) (safePairs : List (List Char × List Char)) :
    Meets (readPath host path safePairs) (fun _ => True) Translated := by
  unfold readPath
  split
  · split
    · simp only [meets_bind, meets_require, meets_pure]
      exact ⟨fun _ => trivial, fun _ => translated_execution _⟩
    · exact translated_execution _
  · split
    · simp only [meets_bind, meets_require, meets_pure]
      exact ⟨fun _ => trivial, fun _ => translated_execution _⟩
    · split
      · simp only [meets_bind, meets_require, meets_pure]
        exact ⟨fun _ => trivial, fun _ => translated_execution _⟩
      · exact translated_execution _

/-- A target that is refused is refused with an `AdapterExecutionError`. -/
theorem meets_readLocator (target : List Char) :
    Meets (readLocator c target) Locator.WellFormed Translated := by
  refine meets_iff.mpr ⟨fun l hl => (readLocator_eq_ok hl).2.1, ?_⟩
  suffices hraised : Meets (readLocator c target) (fun _ => True) Translated from (meets_iff.mp hraised).2
  simp only [readLocator, readOrigin, readPairs, meets_bind, meets_require, meets_ofOption, meets_pure]
  refine ⟨fun _ => ⟨fun _ _ => ⟨fun _ _ => ⟨fun _ _ => ⟨fun _ => ⟨fun _ => ⟨fun _ => ⟨fun _ => ?_, ?_⟩, ?_⟩, ?_⟩, ?_⟩, ?_⟩, ?_⟩, ?_⟩, ?_⟩
  · apply meets_mono (meets_readPath _ _ _)
    · exact fun _ _ => ⟨fun _ => trivial, fun _ => translated_execution _⟩
    · exact fun _ => id
  all_goals exact fun _ => translated_execution _

/-- The page of a video is found, or its locator is refused. -/
theorem meets_authoritative (target : List Char) :
    Meets (authoritativeYoutubeVideoUrl c target) (fun _ => True) Translated := by
  rw [authoritativeYoutubeVideoUrl, canonicalYoutubeVideoUrl, meets_bind, meets_bind]
  apply meets_mono (meets_readLocator target)
  · intro l hl
    rw [meets_pure, hl.urlsplit_url]
    show Meets (if l.parts.path = "/watch".toList then _ else _) _ _
    rw [hl.videoIdFromUrl_url]
    split
    · trivial
    · trivial
  · exact fun _ => id

/-- Metadata is projected, with the identifier of the video it was asked for, or refused. -/
theorem meets_projectMetadata {φ : Type} {isBounded : φ → Bool} {l : Locator} (hl : l.WellFormed) (document : JsonValue φ) :
    Meets (projectMetadata c isBounded document (urlunsplit l.parts))
      (fun output => JsonValue.get? output "id" = some (.string (textOf l.expectedVideoId))) Translated := by
  refine meets_iff.mpr ⟨fun output houtput => projectMetadata_id hl.videoIdFromUrl_url hl.id houtput, ?_⟩
  suffices hraised : Meets (projectMetadata c isBounded document (urlunsplit l.parts)) (fun _ => True) Translated from
    (meets_iff.mp hraised).2
  unfold projectMetadata
  split
  · rename_i fields
    simp only [hl.videoIdFromUrl_url, meets_bind, meets_require, meets_pure, meets_ok]
    refine ⟨fun _ => ?_, fun _ => translated_execution _⟩
    refine meets_mono (meets_safeFields fields _) (fun _ _ => ?_) fun _ => id
    refine meets_mono (meets_projectList fields _) (fun _ _ => ?_) fun _ => id
    refine meets_mono (meets_projectList fields _) (fun _ _ => ?_) fun _ => id
    refine meets_mono (meets_projectChapters fields) (fun _ _ => ?_) fun _ => id
    refine meets_mono (meets_projectLanguages fields _) (fun _ _ => ?_) fun _ => id
    refine meets_mono (meets_projectLanguages fields _) (fun _ _ => ?_) fun _ => id
    exact meets_authoritative _
  · exact translated_execution _

/-! ### Outcomes -/

section
variable {φ : Type}

/-- A response within the limits, about a video. -/
structure Response.Proper (limits : Limits) (id : List Char) (response : Response φ) : Prop where
  same : response.networkBytes = response.decompressedBytes
  network : response.networkBytes ≤ limits.maximumNetworkBytes
  redirects : response.redirects ≤ limits.maximumRedirects
  video : JsonValue.get? response.metadata "id" = some (.string (textOf id))

/-- The failure code of an envelope. -/
def HasFailureCode (document : List (Text × JsonValue φ)) (name : String) : Prop :=
  JsonValue.get? document "failure_code" = some (.string (Text.ofString name))

/-- The limit that an envelope says is exhausted is the request's own. -/
def RequestExhausted (limits : Limits) (document : List (Text × JsonValue φ)) : Prop :=
  (HasFailureCode document "network_budget_exhausted" ∧ limits.maximumNetworkBytes = limits.requestNetworkLimit) ∨
    (HasFailureCode document "redirect_budget_exhausted" ∧ limits.maximumRedirects = limits.requestRedirectLimit)

/-- An `AdapterExecutionError`, and a `YTDLPBudgetExceededError` only for the request's own limit. -/
def Reported (p : Platform φ) (payload : List UInt8) (limits : Limits) : Raised → Prop
  | .budgetExceeded _ _ => ∃ document, loadOutput p payload = .ok (.object document) ∧ RequestExhausted limits document
  | raised => raised.isExecution = true

def isContainer : JsonValue φ → Bool
  | .array _ => true
  | .object _ => true
  | _ => false

/-- An envelope of a failure, its usage within the limits. -/
structure IsFailure (limits : Limits) (document : List (Text × JsonValue φ)) (failureCode : JsonValue φ) : Prop where
  keys : JsonValue.hasKeys document
    ["schema", "status", "network_bytes", "decompressed_bytes", "redirects", "failure_code"] = true
  schema : JsonValue.get? document "schema" = some (.string (Text.ofString workerSchema))
  status : JsonValue.get? document "status" = some (.string (Text.ofString "failed"))
  code : JsonValue.get? document "failure_code" = some failureCode
  usage : ∃ bytes redirects : Nat, JsonValue.get? document "network_bytes" = some (.int bytes) ∧
    JsonValue.get? document "decompressed_bytes" = some (.int bytes) ∧ JsonValue.get? document "redirects" = some (.int redirects) ∧
      bytes ≤ limits.maximumNetworkBytes ∧ redirects ≤ limits.maximumRedirects

/-- A failure whose code has no hash. -/
def UnhashableFailure (p : Platform φ) (payload : List UInt8) (limits : Limits) : Prop :=
  ∃ document failureCode, loadOutput p payload = .ok (.object document) ∧ IsFailure limits document failureCode ∧
    isContainer failureCode = true

theorem isText_iff {s : Text} {value : Option (JsonValue φ)} : isText s value = true ↔ value = some (.string s) := by
  constructor
  · intro h
    unfold isText at h
    split at h
    · rw [of_decide_eq_true h]
    · cases h
  · intro h
    rw [h]
    exact decide_eq_true rfl

theorem usageInteger_eq_ok {document : List (Text × JsonValue φ)} {name : String} {n : Nat} :
    usageInteger document name = .ok n ↔ JsonValue.get? document name = some (.int n) := by
  unfold usageInteger
  split
  · rename_i m hm
    rw [hm, Option.some.injEq, JsonValue.int.injEq]
    by_cases hpos : 0 ≤ m
    · rw [if_pos hpos, Except.ok.injEq]
      omega
    · rw [if_neg hpos]
      constructor
      · exact nofun
      · intro heq
        omega
  · rename_i hnot
    constructor
    · exact nofun
    · exact fun h => absurd h (hnot n)

/-- What is known of an envelope whose usage was read. -/
theorem readUsage_eq_ok {limits : Limits} {document : List (Text × JsonValue φ)} {usage : Usage}
    (h : readUsage limits document = .ok usage) :
    JsonValue.hasKeys document ["schema", "status", "network_bytes", "decompressed_bytes", "redirects",
      if hasStatus document "succeeded" then "metadata" else "failure_code"] = true ∧
    JsonValue.get? document "schema" = some (.string (Text.ofString workerSchema)) ∧
    JsonValue.get? document "network_bytes" = some (.int usage.networkBytes) ∧
    JsonValue.get? document "decompressed_bytes" = some (.int usage.decompressedBytes) ∧
    JsonValue.get? document "redirects" = some (.int usage.redirects) ∧
    usage.networkBytes ≤ limits.maximumNetworkBytes ∧ usage.decompressedBytes = usage.networkBytes ∧
    usage.redirects ≤ limits.maximumRedirects := by
  simp only [readUsage, bind_eq_ok, require_eq_ok, usageInteger_eq_ok, Bool.and_eq_true, decide_eq_true_eq, isText_iff] at h
  obtain ⟨-, ⟨hkeys, hschema⟩, bytes, hbytes, unpacked, hunpacked, redirects, hredirects, -, ⟨hwithin, -, hsame, hfew⟩, heq⟩ := h
  cases heq
  exact ⟨hkeys, hschema, hbytes, hunpacked, hredirects, hwithin, hsame, hfew⟩

/-- An envelope that is refused before its outcome is looked at is refused with an `AdapterExecutionError`. -/
theorem readUsage_execution {limits : Limits} {document : List (Text × JsonValue φ)} {raised : Raised}
    (h : readUsage limits document = .error raised) : ∃ message, raised = .execution message := by
  have hinteger : ∀ name, Meets (usageInteger document name) (fun _ => True) fun raised => ∃ message, raised = .execution message := by
    intro name
    unfold usageInteger
    split
    · split
      · trivial
      · exact ⟨_, rfl⟩
    · exact ⟨_, rfl⟩
  have hmeets : Meets (readUsage limits document) (fun _ => True) fun raised => ∃ message, raised = .execution message := by
    simp only [readUsage, meets_bind, meets_require, meets_pure]
    refine ⟨fun _ => ?_, fun _ => ⟨_, rfl⟩⟩
    refine meets_mono (hinteger "network_bytes") (fun _ _ => ?_) fun _ => id
    refine meets_mono (hinteger "decompressed_bytes") (fun _ _ => ?_) fun _ => id
    refine meets_mono (hinteger "redirects") (fun _ _ => ?_) fun _ => id
    exact ⟨fun _ => trivial, fun _ => ⟨_, rfl⟩⟩
  exact (meets_iff.mp hmeets).2 raised h

theorem not_succeeded_of_failed {document : List (Text × JsonValue φ)} (h : hasStatus document "failed" = true) :
    hasStatus document "succeeded" = false := by
  rw [hasStatus, isText_iff] at h
  have hne : Text.ofString "failed" ≠ Text.ofString "succeeded" := by decide
  rw [hasStatus, h]
  exact decide_eq_false hne

/-- A failure is read as one, and what is read as one is a failure. -/
theorem isFailure_iff {limits : Limits} {document : List (Text × JsonValue φ)} {failureCode : JsonValue φ} :
    IsFailure limits document failureCode ↔ (∃ usage, readUsage limits document = .ok usage) ∧
      hasStatus document "failed" = true ∧ JsonValue.get? document "failure_code" = some failureCode := by
  constructor
  · intro h
    obtain ⟨bytes, redirects, hbytes, hunpacked, hredirects, hwithin, hfew⟩ := h.usage
    have hfailed : hasStatus document "failed" = true := isText_iff.mpr h.status
    refine ⟨⟨⟨bytes, bytes, redirects⟩, ?_⟩, hfailed, h.code⟩
    simp only [readUsage, bind_eq_ok, require_eq_ok, usageInteger_eq_ok, not_succeeded_of_failed hfailed]
    refine ⟨(), ?_, bytes, hbytes, bytes, hunpacked, redirects, hredirects, (), ?_, rfl⟩
    · rw [Bool.and_eq_true]
      exact ⟨h.keys, isText_iff.mpr h.schema⟩
    · exact decide_eq_true ⟨hwithin, hwithin, rfl, hfew⟩
  · intro hall
    obtain ⟨⟨usage, husage⟩, hfailed, hcode⟩ := hall
    obtain ⟨hkeys, hschema, hbytes, hunpacked, hredirects, hwithin, hsame, hfew⟩ := readUsage_eq_ok husage
    rw [not_succeeded_of_failed hfailed] at hkeys
    rw [hsame] at hunpacked
    exact ⟨hkeys, hschema, isText_iff.mp hfailed, hcode, _, _, hbytes, hunpacked, hredirects, hwithin, hfew⟩

/-- An envelope that is no success has a failure code. -/
theorem failureCode_of_keys {limits : Limits} {document : List (Text × JsonValue φ)} {usage : Usage}
    (h : readUsage limits document = .ok usage) (hfailed : hasStatus document "failed" = true) :
    ∃ failureCode, JsonValue.get? document "failure_code" = some failureCode := by
  have hkeys := (readUsage_eq_ok h).1
  rw [not_succeeded_of_failed hfailed, JsonValue.hasKeys, Bool.and_eq_true] at hkeys
  exact Option.isSome_iff_exists.mp (List.all_eq_true.mp hkeys.2 "failure_code" (by simp))

/-- A code that is a list or an object is looked up, and that raises a `TypeError`. -/
theorem raiseFailure_container {limits : Limits} {usage : Usage} {failureCode : JsonValue φ}
    (h : isContainer failureCode = true) : raiseFailure limits usage failureCode = .error .typeError := by
  cases failureCode with
  | array items => rfl
  | object fields => rfl
  | _ => cases h

theorem memberOf_of_not_container (texts : List String) {value : JsonValue φ} (h : isContainer value = false) :
    ∃ found, memberOf texts value = .ok found := by
  cases value with
  | array items => cases h
  | object fields => cases h
  | _ => exact ⟨_, rfl⟩

/-- Any other code is reported, the exhausted limit of a request as such. -/
theorem meets_raiseFailure {p : Platform φ} {payload : List UInt8} {limits : Limits} {usage : Usage}
    {document : List (Text × JsonValue φ)} {failureCode : JsonValue φ} (hload : loadOutput p payload = .ok (.object document))
    (hcode : JsonValue.get? document "failure_code" = some failureCode) (h : isContainer failureCode = false)
    (Q : Response φ → Prop) : Meets (raiseFailure limits usage failureCode) Q (Reported p payload limits) := by
  obtain ⟨budget, hbudget⟩ := memberOf_of_not_container ["network_budget_exhausted", "redirect_budget_exhausted"] h
  obtain ⟨known, hknown⟩ := memberOf_of_not_container ["extraction_failed", "output_limit_exhausted", "policy_blocked"] h
  have hname : ∀ name, isText (Text.ofString name) (some failureCode) = true → HasFailureCode document name := fun name hname =>
    hcode.trans (isText_iff.mp hname)
  rw [raiseFailure]
  simp only [hbudget, hknown, meets_bind, meets_ok]
  cases budget with
  | true =>
    rw [if_pos rfl]
    split
    · rename_i hlimited
      exact ⟨document, hload, hlimited.imp (And.imp_left (hname _)) (And.imp_left (hname _))⟩
    · rfl
  | false =>
    rw [if_neg Bool.false_ne_true]
    cases known with
    | true => rfl
    | false => rfl

/-- A success is reported, and so is metadata that cannot be projected. -/
theorem meets_succeed {p : Platform φ} {payload : List UInt8} {limits : Limits} {usage : Usage} {l : Locator}
    (hl : l.WellFormed) (hnetwork : usage.networkBytes ≤ limits.maximumNetworkBytes)
    (hsame : usage.decompressedBytes = usage.networkBytes) (hredirects : usage.redirects ≤ limits.maximumRedirects)
    (metadata : JsonValue φ) :
    Meets (succeed p (urlunsplit l.parts) usage metadata) (Response.Proper limits l.expectedVideoId) (Reported p payload limits) := by
  have hproject := meets_iff.mp (@meets_projectMetadata p.codecs _ p.isBounded l hl metadata)
  rw [succeed]
  split
  · rename_i projected hprojected
    exact ⟨hsame.symm, hnetwork, hredirects, hproject.1 projected hprojected⟩
  · rename_i raised hraised
    have htranslated : raised.isTranslated = true := hproject.2 raised hraised
    rw [if_pos htranslated]
    rfl

theorem unhashableFailure_iff {p : Platform φ} {payload : List UInt8} {limits : Limits}
    {document : List (Text × JsonValue φ)} (hload : loadOutput p payload = .ok (.object document)) :
    UnhashableFailure p payload limits ↔
      ∃ failureCode, IsFailure limits document failureCode ∧ isContainer failureCode = true := by
  constructor
  · intro hunhashable
    obtain ⟨document', failureCode, hload', hfailure, hcontainer⟩ := hunhashable
    cases hload.symm.trans hload'
    exact ⟨failureCode, hfailure, hcontainer⟩
  · intro hfound
    obtain ⟨failureCode, hfailure, hcontainer⟩ := hfound
    exact ⟨document, failureCode, hload, hfailure, hcontainer⟩

/-- A failure is reported if its code has a hash. -/
theorem meets_failed_iff {p : Platform φ} {payload : List UInt8} {limits : Limits} {usage : Usage}
    {document : List (Text × JsonValue φ)} {expectedVideoId : List Char}
    (hload : loadOutput p payload = .ok (.object document)) (husage : readUsage limits document = .ok usage)
    (hfailed : hasStatus document "failed" = true) :
    Meets (raiseFailure limits usage ((JsonValue.get? document "failure_code").getD .null))
        (Response.Proper limits expectedVideoId) (Reported p payload limits) ↔
      ¬ UnhashableFailure p payload limits := by
  obtain ⟨failureCode, hcode⟩ := failureCode_of_keys husage hfailed
  have hfailure : IsFailure limits document failureCode := isFailure_iff.mpr ⟨⟨usage, husage⟩, hfailed, hcode⟩
  rw [hcode, Option.getD_some, unhashableFailure_iff hload]
  cases hcontainer : isContainer failureCode with
  | true =>
    rw [raiseFailure_container hcontainer]
    exact iff_of_false Bool.false_ne_true fun h => h ⟨failureCode, hfailure, hcontainer⟩
  | false =>
    refine iff_of_true (meets_raiseFailure hload hcode hcontainer _) fun hfound => ?_
    obtain ⟨failureCode', hfailure', hcontainer'⟩ := hfound
    cases hcode.symm.trans hfailure'.code
    cases hcontainer.symm.trans hcontainer'

/-- **Whatever a worker prints comes to a proper response or an `AdapterExecutionError`, unless it is nested
deeper than the interpreter reads or is a failure whose code has no hash.** -/
theorem decodeWorkerEnvelope_sound_iff (p : Platform φ) {target sourceUrl : List Char} {l : Locator}
    (hl : readLocator p.codecs target = .ok l) (hsource : canonicalYoutubeVideoUrl p.codecs target = .ok sourceUrl)
    (payload : List UInt8) (limits : Limits) :
    Meets (decodeWorkerEnvelope p payload sourceUrl limits) (Response.Proper limits l.expectedVideoId)
        (Reported p payload limits) ↔
      loadOutput p payload ≠ .error .recursion ∧ ¬ UnhashableFailure p payload limits := by
  have hwell := (readLocator_eq_ok hl).2.1
  have hurl : sourceUrl = urlunsplit l.parts := by
    rw [canonicalYoutubeVideoUrl, hl] at hsource
    exact (Except.ok.inj hsource).symm
  have hother : (∀ document, loadOutput p payload ≠ .ok (.object document)) → ¬ UnhashableFailure p payload limits := by
    intro hno hunhashable
    obtain ⟨document, _, hdocument, -⟩ := hunhashable
    exact hno document hdocument
  rw [hurl, decodeWorkerEnvelope]
  split
  · rename_i hload
    exact iff_of_false Bool.false_ne_true fun h => h.1 hload
  · rename_i fault hdeep hload
    refine iff_of_true rfl ⟨fun h => hdeep (Except.error.inj (hload.symm.trans h)), hother fun document => ?_⟩
    rw [hload]
    exact error_ne_ok
  · rename_i document hload
    have hdeep : loadOutput p payload ≠ .error .recursion := by
      rw [hload]
      exact error_ne_ok.symm
    rw [and_iff_right hdeep, meets_bind]
    cases husage : readUsage limits document with
    | error raised =>
      obtain ⟨message, rfl⟩ := readUsage_execution husage
      refine iff_of_true rfl fun hunhashable => ?_
      obtain ⟨failureCode, hfailure, -⟩ := (unhashableFailure_iff hload).mp hunhashable
      obtain ⟨⟨usage, hok⟩, -⟩ := isFailure_iff.mp hfailure
      cases husage.symm.trans hok
    | ok usage =>
      rw [meets_ok]
      cases hfailed : hasStatus document "failed" with
      | true =>
        rw [if_pos rfl]
        exact meets_failed_iff hload husage hfailed
      | false =>
        have hno : ¬ UnhashableFailure p payload limits := by
          intro hunhashable
          obtain ⟨failureCode, hfailure, -⟩ := (unhashableFailure_iff hload).mp hunhashable
          cases hfailed.symm.trans (isFailure_iff.mp hfailure).2.1
        obtain ⟨-, -, -, -, -, hwithin, hsame, hfew⟩ := readUsage_eq_ok husage
        rw [if_neg Bool.false_ne_true]
        split
        · exact iff_of_true (meets_succeed hwell hwithin hsame hfew _) hno
        · exact iff_of_true rfl hno
  · rename_i value hnot hload
    refine iff_of_true rfl ⟨?_, hother fun document => ?_⟩
    · rw [hload]
      exact error_ne_ok.symm
    · rw [hload]
      intro heq
      exact hnot document (Except.ok.inj heq)

end

/-! ### Two failures -/

/-- A platform without floating-point numbers that knows ASCII names only. -/
def plainPlatform : Platform Unit where
  codecs := plainCodecs
  floats := .none
  isBounded _ := true
  recursionLimit _ := 990

def plainLimits : Limits := ⟨5000000, 4, 5000000, 4⟩

/-- A failure that reports no usage, with a code. -/
def failurePayload (failureCode : String) : List UInt8 :=
  encodeUtf8 ("\x7b\"schema\":\"fetech.yt_dlp.worker.v1\",\"status\":\"failed\",\"network_bytes\":0," ++
    "\"decompressed_bytes\":0,\"redirects\":0,\"failure_code\":" ++ failureCode ++ "\x7d").toList

def watchUrl : List Char := "https://www.youtube.com/watch?v=abc".toList

theorem read_watch : readLocator plainPlatform.codecs watchUrl =
    .ok ⟨"www.youtube.com".toList, "/watch".toList, [("v".toList, "abc".toList)], "abc".toList⟩ := by decide +kernel

theorem canonical_watch : canonicalYoutubeVideoUrl plainPlatform.codecs watchUrl = .ok watchUrl := by decide +kernel

/-- Whether the failure code of what was printed is a list or an object. -/
def codeIsContainer (p : Platform Unit) (payload : List UInt8) : Option Bool :=
  match loadOutput p payload with
  | .ok (.object document) => (JsonValue.get? document "failure_code").map isContainer
  | _ => none

/-- What a decoded envelope raises. -/
def raisedBy {φ : Type} : Except Raised (Response φ) → Option Raised
  | .ok _ => none
  | .error raised => some raised

/-- A failure with a code that is a text. -/
theorem decodeWorkerEnvelope_policy_blocked :
    Meets (decodeWorkerEnvelope plainPlatform (failurePayload "\"policy_blocked\"") watchUrl plainLimits)
      (Response.Proper plainLimits "abc".toList)
      (Reported plainPlatform (failurePayload "\"policy_blocked\"") plainLimits) := by
  have hcode : codeIsContainer plainPlatform (failurePayload "\"policy_blocked\"") = some false := by decide +kernel
  generalize failurePayload "\"policy_blocked\"" = payload at hcode ⊢
  refine (decodeWorkerEnvelope_sound_iff plainPlatform read_watch canonical_watch _ _).mpr ⟨?_, ?_⟩
  · intro hload
    rw [codeIsContainer, hload] at hcode
    cases hcode
  · intro ⟨document, failureCode, hload, hfailure, hcontainer⟩
    have hread : codeIsContainer plainPlatform payload = some (isContainer failureCode) := by
      rw [codeIsContainer, hload]
      exact congrArg (Option.map isContainer) hfailure.code
    rw [hread, hcontainer] at hcode
    cases hcode

/-- A failure whose code is a list. -/
theorem list_as_failure_code : ¬ ∀ (p : Platform Unit) (target sourceUrl : List Char) (l : Locator),
    readLocator p.codecs target = .ok l → canonicalYoutubeVideoUrl p.codecs target = .ok sourceUrl →
      ∀ (payload : List UInt8) (limits : Limits), Meets (decodeWorkerEnvelope p payload sourceUrl limits)
        (Response.Proper limits l.expectedVideoId) (Reported p payload limits) := by
  intro h
  have hraised : raisedBy (decodeWorkerEnvelope plainPlatform (failurePayload "[]") watchUrl plainLimits) =
      some .typeError := by decide +kernel
  generalize failurePayload "[]" = payload at hraised
  have hmeets := h plainPlatform _ _ _ read_watch canonical_watch payload plainLimits
  cases houtcome : decodeWorkerEnvelope plainPlatform payload watchUrl plainLimits with
  | ok response =>
    rw [houtcome] at hraised
    cases hraised
  | error raised =>
    rw [houtcome] at hraised hmeets
    cases hraised
    cases hmeets

end Fetech.YtDlp
