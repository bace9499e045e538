import Fetech.Http.Errors
import Fetech.Http.Receipts
import Fetech.Http.Tracks

/-! What an acquisition leaves behind.

`Accounted` is what the rest of the program relies on: an acquisition ends as its callers
expect, its attempt is settled and reports what came over the wire, and a page that was
stored counts as a success. It holds exactly where each step the acquisition comes to is
handled (`execute_accounted`): an unreadable redirect, an unknown charset or a candidate
URL in the markup that cannot be taken apart leaves the attempt running. -/
namespace Fetech.Http
open Lib Lib.Url Lib.Program

/-- What callers expect: a `PolicyBlockedError`, the adapter's own errors, a deadline, or
their own cancellation. -/
def HttpError.Expected : HttpError → Prop
  | .transport _ _ | .unicode _ | .value | .policy .value | .other _ => False
  | _ => True

/-- The attempt reports the bytes and the redirects that were received. -/
structure Reports (attempt : FetchAttempt) (received : List Receipt) : Prop where
  bytes : attempt.consumedBudget.int .bytes = wireBytes received
  decompressedBytes : attempt.consumedBudget.int .decompressedBytes = decodedBytes received
  redirects : attempt.consumedBudget.int .redirects = redirectCount received

/-- An acquisition that began in `ctx` is accounted for. -/
structure Accounted (ctx : ExecutionContext) (outcome : Except HttpError Unit × Exchange) : Prop where
  raised : ∀ err, outcome.1 = .error err → err.Expected
  settled : ∃ attempt, outcome.2.context.attempts = ctx.attempts ++ [attempt] ∧ attempt.status ≠ .running ∧
    Reports attempt outcome.2.received
  page : outcome.2.context.artifacts ≠ ctx.artifacts → outcome.1 = .ok ()

/-! ### The page -/

variable (f : Fetcher) (node : PlanNode) (w : PageWorld)

theorem sanitized_isSome (url : String) : (f.policy.sanitizeUrl url).isSome ↔ Readable f.codecs url := by
  rw [f.sanitizes]
  exact sanitizeUrl_isSome

theorem recordQualityOutcomes_quiet (quality : QualityAssessment) (stage : String) :
    Respects Quiet (record fun ctx => ctx.recordQualityOutcomes quality stage) := by
  have hkept : ∀ ctx : ExecutionContext, ∃ outcomes,
      ctx.recordQualityOutcomes quality stage = {ctx with capabilityOutcomes := outcomes} := by
    intro ctx
    rw [ExecutionContext.recordQualityOutcomes, ExecutionContext.foldl_recordOutcome]
    exact ⟨_, rfl⟩
  refine Quiet.record (fun ctx => ?_) (fun ctx => ?_) fun ctx => ?_ <;>
  · obtain ⟨outcomes, heq⟩ := hkept ctx
    rw [heq]

/-- The text of the page and its score come, or an error that is handled; then the store
answers, or its error is handled. -/
def StoreHandled (result : HttpResult) : Prop :=
  Readable f.codecs result.url ∧
  (isTextMedia (mediaTypeOf result.response) = true →
    ∀ err, f.decode result.response.contentType result.body = .error err → err.Handled) ∧
  ((isTextMedia (mediaTypeOf result.response) = true →
      (f.decode result.response.contentType result.body).isOk = true) →
    ∀ err, w.stored = .error err → err.Handled)

theorem storePage_handled (result : HttpResult) (s : Exchange)
    (htarget : Readable f.codecs s.context.request.target) :
    (storePage f w result).RaisesOnly s HttpError.Handled ↔ StoreHandled f w result := by
  have hshown : ∀ url, Readable f.codecs url ↔ (f.sanitizeUrlForRequest url s.context.request).isSome :=
    fun url => sanitizeUrl_isSome.symm
  obtain ⟨requestedUrl, hrequested⟩ := Option.isSome_iff_exists.mp ((hshown _).mp htarget)
  simp only [RaisesOnly, StoreHandled, storePage, assessPage, record, meets_bind, meets_get, meets_ofOption, meets_ite,
    meets_ofExcept, meets_modify, meets_pure, hrequested, hshown]
  cases f.sanitizeUrlForRequest result.url s.context.request with
  | none => simp
  | some canonicalUrl =>
    cases isTextMedia (mediaTypeOf result.response) with
    | false => simp
    | true => cases f.decode result.response.contentType result.body <;> simp [Except.isOk, Except.toBool]

/-- The page stored: one artifact more, and nothing else that is counted. -/
theorem storePage_meets (result : HttpResult) (s : Exchange) :
    (storePage f w result).Meets s
      (fun artifact t => t.context.attempts = s.context.attempts ∧ t.context.artifacts = s.context.artifacts ++ [artifact] ∧
        artifact.mediaType = mediaTypeOf result.response ∧ t.meter = s.meter)
      fun _ t => t = s := by
  simp only [storePage, assessPage, record, meets_bind, meets_get, meets_ofOption, meets_ite, meets_ofExcept,
    meets_modify, meets_pure]
  simp [Exchange.meter]

/-- The markup can be read, and every URL it points to: each joins with that of the page
and can be shown. -/
def PageRead (result : HttpResult) : Prop :=
  isHtmlMedia (mediaTypeOf result.response) = true → ∃ text, ∃ nav : Navigation,
    f.decode result.response.contentType result.body = .ok text ∧
    (f.feed text).1.foldlM (Navigation.handle f result.url) {} = some nav ∧ (f.feed text).2 = none ∧
    ∀ capabilityId ∈ navigationCapabilities, ∀ url, nav.candidates.get? capabilityId = some url → Readable f.codecs url

theorem recordCandidates_quiet (nav : Navigation) (capabilities : List String) :
    Respects Quiet (recordCandidates f nav capabilities) := by
  induction capabilities with
  | nil => exact .pure _
  | cons capabilityId rest ih =>
    rw [recordCandidates]
    split
    · exact .bind (Quiet.recordOutcome _ _ _ _) fun _ => ih
    · exact .bind (Quiet.sanitized _ _) fun _ => .bind (Quiet.recordOutcome _ _ _ _) fun _ => ih

theorem recordCandidates_returns (nav : Navigation) (capabilities : List String) (s : Exchange) :
    (recordCandidates f nav capabilities).RaisesOnly s (fun _ => False) ↔
      ∀ capabilityId ∈ capabilities, ∀ url, nav.candidates.get? capabilityId = some url → Readable f.codecs url := by
  induction capabilities generalizing s with
  | nil => simp [RaisesOnly, recordCandidates]
  | cons capabilityId rest ih =>
    have hrest := ih
    unfold RaisesOnly at hrest
    rw [recordCandidates, List.forall_mem_cons]
    cases hcandidate : nav.candidates.get? capabilityId with
    | none => simp [RaisesOnly, recordOutcome, record, hrest]
    | some candidate =>
      simp only [RaisesOnly, sanitized, recordOutcome, record, meets_bind, meets_ofOption, meets_modify, hrest]
      have hshown := sanitized_isSome f candidate
      cases hsanitized : f.policy.sanitizeUrl candidate with
      | none =>
        have hunreadable : ¬ Readable f.codecs candidate := by simpa [hsanitized] using hshown
        simp [hunreadable]
      | some shown =>
        have hreadable : Readable f.codecs candidate := hshown.mp (by rw [hsanitized]; rfl)
        simp [hreadable]

theorem recordNavigation_quiet (result : HttpResult) : Respects Quiet (recordNavigation f result) :=
  .bind (.ofExcept _) fun _ => .bind (.ofOption _ _) fun _ => .bind (.ofExcept _) fun _ => recordCandidates_quiet f _ _

theorem recordNavigation_returns (result : HttpResult) (s : Exchange) :
    (recordNavigation f result).RaisesOnly s (fun _ => False) ↔ ∃ text, ∃ nav : Navigation,
      f.decode result.response.contentType result.body = .ok text ∧
      (f.feed text).1.foldlM (Navigation.handle f result.url) {} = some nav ∧ (f.feed text).2 = none ∧
      ∀ capabilityId ∈ navigationCapabilities, ∀ url, nav.candidates.get? capabilityId = some url →
        Readable f.codecs url := by
  have hrecorded := recordCandidates_returns f
  unfold RaisesOnly at hrecorded
  simp only [RaisesOnly, recordNavigation, meets_bind, meets_ofExcept, meets_ofOption, hrecorded]
  cases f.decode result.response.contentType result.body with
  | error err => simp
  | ok text =>
    cases hnav : (f.feed text).1.foldlM (Navigation.handle f result.url) {} with
    | none => simp [hnav]
    | some nav => cases hfailure : (f.feed text).2 <;> simp [hnav, hfailure]

theorem recordResponseOutcomes_quiet (result : HttpResult) (artifact : Artifact) :
    Respects Quiet (recordResponseOutcomes f result artifact) :=
  .bind (Quiet.record (fun _ => rfl) (fun _ => rfl) fun _ => rfl) fun _ => .when _ <|
    .bind (Quiet.recordOutcome _ _ _ _) fun _ => recordNavigation_quiet f result

/-- A stored page is a success exactly if its markup can be read. -/
theorem completePage_returns (attempt : FetchAttempt) (index : Nat) (result : HttpResult) (artifact : Artifact)
    (s : Exchange) (hmedia : artifact.mediaType = mediaTypeOf result.response) (hurl : Readable f.codecs result.url) :
    (completePage f w attempt index result artifact).RaisesOnly s (fun _ => False) ↔ PageRead f result := by
  have hnavigation := recordNavigation_returns f result
  unfold RaisesOnly at hnavigation
  obtain ⟨shown, hshown⟩ := Option.isSome_iff_exists.mp ((sanitized_isSome f result.url).mpr hurl)
  simp only [RaisesOnly, PageRead, completePage, recordResponseOutcomes, sanitized, recordOutcome, record, meets_bind,
    meets_when, meets_modify, meets_ofOption, hshown, hmedia]
  simp [hnavigation]

theorem Counts.of_meter {s t : Exchange} (hs : Counts s) (h : t.meter = s.meter) : Counts t := by
  have husage : t.usage = s.usage := congrArg Meter.usage h
  have hstatuses : t.redirectStatuses = s.redirectStatuses := congrArg Meter.redirectStatuses h
  have hreceived : t.received = s.received := congrArg Meter.received h
  exact ⟨by rw [husage, hreceived, hs.wire], by rw [husage, hreceived, hs.decompressed],
    by rw [husage, hreceived, hs.redirects], by rw [hstatuses, hreceived, hs.statuses]⟩

/-- Where the call counts what it receives, its attempt reports that. -/
theorem Counts.reports {s : Exchange} (hs : Counts s) {attempt : FetchAttempt} {seconds : ℚ}
    (h : attempt.consumedBudget = httpConsumedBudget s.usage seconds) : Reports attempt s.received := by
  refine ⟨?_, ?_, ?_⟩ <;> rw [h]
  · exact congrArg Nat.cast hs.wire
  · exact congrArg Nat.cast hs.decompressed
  · exact congrArg Nat.cast hs.redirects

/-- All of a page but its attempt. -/
theorem completePage_quiet (result : HttpResult) (artifact : Artifact) : Respects Quiet (do
    recordResponseOutcomes f result artifact
    record fun ctx => ctx.recordQualityOutcomes artifact.quality "quality"
    sanitized f.toHttpAdapter result.url) :=
  .bind (recordResponseOutcomes_quiet f result artifact) fun _ =>
    .bind (recordQualityOutcomes_quiet _ _) fun _ => Quiet.sanitized _ _

/-- The attempt in its last state if the page is complete, and as it was if not. -/
theorem completePage_meets (attempt : FetchAttempt) (index : Nat) (result : HttpResult) (artifact : Artifact)
    (s : Exchange) (hs : Counts s) :
    (completePage f w attempt index result artifact).Meets s
      (fun _ t => ∃ completed : FetchAttempt, t.context.attempts = s.context.attempts.set index completed ∧
        completed.status = .succeeded ∧ Reports completed t.received)
      fun _ t => t.context.attempts = s.context.attempts ∧ t.context.artifacts = s.context.artifacts ∧ Counts t := by
  have hrun := (completePage_quiet f result artifact).meets s
  simp only [completePage, meets_bind, meets_modify] at hrun ⊢
  refine hrun.mono ?_ fun _ t ht => ⟨ht.attempts, ht.artifacts, hs.of_meter ht.meter⟩
  intro _ t ht
  refine ht.mono ?_ fun _ u hu => ⟨hu.attempts, hu.artifacts, hs.of_meter hu.meter⟩
  intro _ u hu
  refine hu.mono ?_ fun _ v hv => ⟨hv.attempts, hv.artifacts, hs.of_meter hv.meter⟩
  intro destination v hv
  refine ⟨_, by rw [hv.attempts], ?_, ?_⟩
  · rfl
  · exact (hs.of_meter hv.meter).reports rfl

/-! ### The acquisition -/

/-- The state after the usage of a finished call is observed. -/
def observed (result : HttpResult) (s : Exchange) : Exchange :=
  let decompressedBytes := result.body.length + result.auxiliaryBytes
  {s with usage :=
    (s.usage.observeBytes result.wireBytes decompressedBytes).observeRedirects result.redirectStatuses.length}

/-- What a call returns was counted when it was received. -/
theorem Summed.observed {result : HttpResult} {s : Exchange} (hs : Summed result s) : observed result s = s := by
  have hbytes : s.usage.observeBytes result.wireBytes (result.body.length + result.auxiliaryBytes) = s.usage := by
    rw [HttpUsage.observeBytes, Nat.max_eq_left hs.wire_le, Nat.max_eq_left hs.decompressed_le]
  rw [Http.observed, hbytes, HttpUsage.observeRedirects_of_le hs.redirects_le]

/-- **Each step of the `try` is handled**: the call, and what becomes of its page. -/
def AcquisitionHandled (s : Exchange) : Prop :=
  CallHandled f.toHttpAdapter (nodeCall node s.context) w.toWorld s ∧
  (request f.toHttpAdapter (nodeCall node s.context) w.toWorld).After s fun result t =>
    StoreHandled f w result ∧ (storePage f w result).After (observed result t) fun _ _ => PageRead f result

/-- The artifacts stay where a page fails. -/
theorem completePage_artifacts (attempt : FetchAttempt) (index : Nat) (result : HttpResult) (artifact : Artifact)
    (s : Exchange) :
    (completePage f w attempt index result artifact).Meets s (fun _ _ => True)
      fun _ t => t.context.artifacts = s.context.artifacts := by
  have hrecorded := (completePage_quiet f result artifact).meets s
  simp only [completePage, meets_bind, meets_modify] at hrecorded ⊢
  refine hrecorded.mono (fun _ t ht => ?_) fun _ _ ht => ht.artifacts
  refine ht.mono (fun _ u hu => ?_) fun _ _ hu => hu.artifacts
  exact hu.mono (fun _ _ _ => trivial) fun _ _ hv => hv.artifacts

/-- With a page stored, only a page that can be read does not fail. -/
theorem completePage_handled (attempt : FetchAttempt) (index : Nat) (result : HttpResult) (artifact : Artifact)
    (s : Exchange) {artifacts : List Artifact} (hmedia : artifact.mediaType = mediaTypeOf result.response)
    (hurl : Readable f.codecs result.url) (hstored : s.context.artifacts ≠ artifacts) :
    ((completePage f w attempt index result artifact).Meets s (fun _ _ => True)
      fun err t => err.Handled ∧ t.context.artifacts = artifacts) ↔ PageRead f result := by
  rw [← completePage_returns f w attempt index result artifact s hmedia hurl]
  constructor
  · intro hmeets
    refine ((completePage_artifacts f w attempt index result artifact s).and hmeets).mono (fun _ _ _ => trivial) ?_
    rintro err t ⟨hkept, -, hnone⟩
    exact hstored (hkept.symm.trans hnone)
  · exact fun hreturns => hreturns.mono (fun _ _ h => h) fun _ _ => False.elim

/-- **Nothing but what has a handler is raised, and nothing at all once the page is
stored, exactly if each step is handled.** -/
theorem acquire_handled (attempt : FetchAttempt) (index : Nat) (s : Exchange)
    (htarget : Readable f.codecs s.context.request.target) :
    ((acquire f node w attempt index).Meets s (fun _ _ => True)
      fun err t => err.Handled ∧ t.context.artifacts = s.context.artifacts) ↔ AcquisitionHandled f node w s := by
  have htracks := (request_tracks f.toHttpAdapter (nodeCall node s.context) w.toWorld).meets s
  rw [acquire, meets_bind, meets_get, meets_bind,
    meets_iff_raisesOnly (htracks.mono (fun _ _ h => h) fun _ _ h => h.artifacts), request_handled]
  refine and_congr_right' (After.congr_of htracks fun result t ht => ?_)
  have hpage := storePage_meets f w result (observed result t)
  have htarget' : Readable f.codecs (observed result t).context.request.target := ht.request ▸ htarget
  rw [meets_bind, meets_modify, meets_bind]
  show ((storePage f w result).Meets (observed result t) _ _) ↔ _
  rw [meets_iff_raisesOnly (hpage.mono (fun _ _ h => h) fun _ _ h => (by rw [h]; exact ht.artifacts)),
    storePage_handled f w result _ htarget']
  refine and_congr_right fun hstore => After.congr_of hpage fun artifact u hu => ?_
  obtain ⟨-, hartifacts, hmedia, -⟩ := hu
  refine completePage_handled f w attempt index result artifact u hmedia hstore.1 ?_
  rw [hartifacts, show (observed result t).context.artifacts = s.context.artifacts from ht.artifacts]
  simp

/-- How the body of the `try` ends: with the attempt in its last state, or with the
attempts as they were, and what was received counted. -/
theorem acquire_meets (attempt : FetchAttempt) (index : Nat) (s : Exchange) (hs : Unread s) :
    (acquire f node w attempt index).Meets s
      (fun _ t => ∃ completed : FetchAttempt, t.context.attempts = s.context.attempts.set index completed ∧
        completed.status = .succeeded ∧ Reports completed t.received)
      fun _ t => t.context.attempts = s.context.attempts ∧ Counts t := by
  rw [acquire, meets_bind, meets_get, meets_bind]
  refine (((request_tracks f.toHttpAdapter (nodeCall node s.context) w.toWorld).meets s).and
    (request_counts f.toHttpAdapter (nodeCall node s.context) w.toWorld s hs)).mono ?_
    fun _ _ ht => ⟨ht.1.attempts, ht.2⟩
  rintro result t ⟨ht, hsummed⟩
  rw [meets_bind, meets_modify, meets_bind]
  show (storePage f w result).Meets (observed result t) _ _
  rw [hsummed.observed]
  refine (storePage_meets f w result t).mono ?_ fun _ u hu => hu ▸ ⟨ht.attempts, hsummed.toCounts⟩
  rintro artifact u ⟨hattempts, -, -, hmeter⟩
  have hkept : u.context.attempts = s.context.attempts := hattempts.trans ht.attempts
  rw [← hkept]
  exact (completePage_meets f w attempt index result artifact u (hsummed.toCounts.of_meter hmeter)).mono
    (fun _ _ h => h) fun _ _ h => ⟨h.1, h.2.2⟩

/-- The attempt an acquisition appends. -/
def runningAttempt (ctx : ExecutionContext) : FetchAttempt where
  capabilityId := node.capabilityId
  sanitizedDestination := (f.sanitizeUrlForRequest ctx.request.target ctx.request).getD ""
  status := .running

/-- The state the `try` begins in. -/
def started (ctx : ExecutionContext) (validated : ValidatedAddresses) : Exchange :=
  .initial {ctx with attempts := ctx.attempts ++ [runningAttempt f node ctx]} validated (nodeCall node ctx)

theorem fetched_eq (ctx : ExecutionContext) (validated : ValidatedAddresses)
    (htarget : Readable f.codecs ctx.request.target) :
    fetched f node w ctx validated = rescue (acquire f node w (runningAttempt f node ctx) ctx.attempts.length)
      (closeAttempt w (runningAttempt f node ctx) ctx.attempts.length) (started f node ctx validated) := by
  obtain ⟨shown, hshown⟩ := Option.isSome_iff_exists.mp
    ((@sanitizeUrl_isSome _ f.query _ ctx.request.authenticationRef.isSome).mpr htarget)
  have hsanitized : f.sanitizeUrlForRequest ctx.request.target ctx.request = some shown := hshown
  have hattempt : runningAttempt f node ctx =
      {capabilityId := node.capabilityId, sanitizedDestination := shown, status := .running} := by
    rw [runningAttempt, hsanitized]
    rfl
  rw [started, hattempt]
  show (ofOption HttpError.value (f.sanitizeUrlForRequest ctx.request.target ctx.request) >>= _ : HttpM Unit) _ = _
  rw [hsanitized]
  rfl

theorem fetched_unreadable (ctx : ExecutionContext) (validated : ValidatedAddresses)
    (htarget : ¬ Readable f.codecs ctx.request.target) : (fetched f node w ctx validated).1 = .error .value := by
  have hsanitized : f.sanitizeUrlForRequest ctx.request.target ctx.request = none := by
    rw [← Option.not_isSome_iff_eq_none]
    exact fun hsome => htarget (sanitizeUrl_isSome.mp hsome)
  show ((ofOption HttpError.value (f.sanitizeUrlForRequest ctx.request.target ctx.request) >>= _ : HttpM Unit) _).1 = _
  rw [hsanitized]
  rfl

/-- A handler settles the attempt and raises what callers expect. -/
theorem HttpError.closing_spec {err : HttpError} {c : Closing} (h : err.closing = some c) :
    c.status ≠ .running ∧ c.raised.Expected := by
  cases err with
  | dependency message => simp [closing] at h
  | value => simp [closing] at h
  | other typeName => simp [closing] at h
  | policy err =>
    cases err with
    | value => simp [closing] at h
    | blocked reason decisions =>
      simp only [closing, Option.some.injEq] at h
      subst h
      simp [Expected]
  | transport typeName timeout =>
    cases timeout <;>
    · simp only [closing, Option.some.injEq] at h
      subst h
      simp [Expected]
  | _ =>
    simp only [closing, Option.some.injEq] at h
    subst h
    simp [Expected]

/-- The state with the attempt as a handler leaves it. -/
def closed (attempt : FetchAttempt) (index : Nat) (c : Closing) (t : Exchange) : Exchange :=
  {t with context := {t.context with attempts := t.context.attempts.set index {attempt with
    status := c.status
    finished := true
    failureCode := some c.failureCode
    warnings := c.warnings
    bytesReceived := t.usage.wireBytes
    consumedBudget := httpConsumedBudget t.usage (max 0 w.seconds)}}}

theorem closeAttempt_none {attempt : FetchAttempt} {index : Nat} {err : HttpError} (h : err.closing = none)
    (t : Exchange) : closeAttempt w attempt index err t = (.error err, t) := by
  rw [closeAttempt, h]
  rfl

theorem closeAttempt_some {attempt : FetchAttempt} {index : Nat} {err : HttpError} {c : Closing}
    (h : err.closing = some c) (t : Exchange) :
    closeAttempt w attempt index err t = (.error c.raised, closed w attempt index c t) := by
  rw [closeAttempt, h]
  rfl

section
variable {ctx : ExecutionContext} {r : Except HttpError Unit} {t : Exchange}

/-- With the attempts as they were, the attempt of the acquisition is still running. -/
theorem not_accounted_of_running (hattempts : t.context.attempts = ctx.attempts ++ [runningAttempt f node ctx]) :
    ¬ Accounted ctx (r, t) := by
  rintro ⟨-, ⟨attempt, hattempt, hstatus, -⟩, -⟩
  have hsame : runningAttempt f node ctx = attempt := by
    have happended : ctx.attempts ++ [runningAttempt f node ctx] = ctx.attempts ++ [attempt] :=
      hattempts.symm.trans hattempt
    simpa using happended
  exact hstatus (hsame ▸ rfl)

theorem accounted_of_succeeded {attempt completed : FetchAttempt}
    (hattempts : t.context.attempts = (ctx.attempts ++ [attempt]).set ctx.attempts.length completed)
    (hstatus : completed.status = .succeeded) (hreports : Reports completed t.received) : Accounted ctx (.ok (), t) := by
  refine ⟨nofun, ⟨completed, ?_, ?_, hreports⟩, fun _ => rfl⟩
  · rw [hattempts]
    simp
  · rw [hstatus]
    nofun

/-- A handler accounts for an error, unless the page was stored already. -/
theorem accounted_of_closed {err : HttpError} {c : Closing} (hclosing : err.closing = some c)
    (hattempts : t.context.attempts = ctx.attempts ++ [runningAttempt f node ctx]) (hcounts : Counts t) :
    Accounted ctx (.error c.raised, closed w (runningAttempt f node ctx) ctx.attempts.length c t) ↔
      t.context.artifacts = ctx.artifacts := by
  obtain ⟨hstatus, hexpected⟩ := HttpError.closing_spec hclosing
  constructor
  · intro haccounted
    by_contra hartifacts
    cases haccounted.page hartifacts
  · intro hartifacts
    have hset : ∀ attempt : FetchAttempt,
        t.context.attempts.set ctx.attempts.length attempt = ctx.attempts ++ [attempt] := by
      intro attempt
      rw [hattempts]
      simp
    refine ⟨?_, ⟨_, hset _, hstatus, hcounts.reports rfl⟩, fun hno => absurd hartifacts hno⟩
    rintro _ ⟨⟩
    exact hexpected

end

/-- ASCII pages of one tag, a link to the canonical URL. -/
def sampleFetcher : Fetcher where
  toHttpAdapter := {sampleAdapter with
    policy := {sampleAdapter.policy with sanitizeUrl := fun url => sanitizeUrl asciiCodecs (fun _ query => query) url}}
  query _ query := query
  sanitizes := rfl
  decode _ body := .ok (String.ofList (body.map fun b => Char.ofNat b.toNat))
  feed text := ([.startTag "link" [("rel", some "canonical"),
    ("href", some (String.ofList (before '"' (after '"' (after '=' (after '=' text.toList))))))]], none)
  search _ _ := none
  assessText _ _ _ := {pageState := .ok, score := 1, accepted := true}

def pageNode : PlanNode := {id := "http", capabilityId := "http_get", adapter := "http"}

def pageContext : ExecutionContext := {request := {target := "https://example.com/"}}

/-- The link of a page to its canonical URL. -/
def canonicalPage (href : String) : Response :=
  {redirecting 200 href with
    location := none
    contentType := some "text/html"
    chunks := [{data := ("<link rel=\"canonical\" href=\"" ++ href ++ "\">").toList.map fun c => c.toNat.toUInt8
                downloaded := 60}]
    downloaded := 60}

/-- An acquisition that meets these answers. -/
def pageFetched (responses : List Response) : Except HttpError Unit × Exchange :=
  fetched sampleFetcher pageNode {toWorld := scripted responses, stored := .ok "digest"} pageContext ∅

/-- The error is a `ValueError`. -/
def isValueError : Except HttpError Unit → Bool
  | .error .value => true
  | _ => false

theorem pageFetched_broken : isValueError (pageFetched [canonicalPage "http://[broken"]).1 = true ∧
    (pageFetched [canonicalPage "http://[broken"]).2.context.artifacts.length = 1 ∧
    isValueError (pageFetched [redirecting 302 "http://[broken"]).1 = true := by
  decide +kernel

end Fetech.Http
