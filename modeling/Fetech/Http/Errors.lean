import Fetech.Http.Execute
import Fetech.Security.Destinations

/-! Which errors a call raises.

`execute` has a handler for some errors and none for others (`HttpError.Handled`). For
each step of a turn, `…Handled` says on which states before it and which answers of the
world the step raises none of the others; a turn is handled if each step it comes to is
(`TurnHandled`), and a call if each turn it comes to is (`CallHandled`). These are
equivalences: a step whose condition fails does raise an error nobody handles. -/
namespace Fetech.Http
open Lib Lib.Url Lib.Program

/-- There is a handler for the error. -/
def HttpError.Handled (err : HttpError) : Prop := err.closing.isSome = true

namespace HttpError

@[simp] theorem handled_execution (message : String) : (execution message).Handled := rfl
@[simp] theorem handled_budgetExceeded (message : String) : (budgetExceeded message).Handled := rfl
@[simp] theorem handled_notFound (message : String) : (notFound message).Handled := rfl
@[simp] theorem handled_authRequired (message : String) : (authRequired message).Handled := rfl
@[simp] theorem handled_authExpired (message : String) : (authExpired message).Handled := rfl
@[simp] theorem handled_deadline (message : String) : (deadline message).Handled := rfl
@[simp] theorem handled_unicode (typeName : String) : (unicode typeName).Handled := rfl
@[simp] theorem handled_blocked (reason : String) (decisions : List PolicyDecision) :
    (policy (.blocked reason decisions)).Handled := rfl

@[simp] theorem handled_transport (typeName : String) (timeout : Bool) : (transport typeName timeout).Handled := by
  cases timeout <;> rfl

@[simp] theorem not_handled_value : ¬ value.Handled := Bool.false_ne_true
@[simp] theorem not_handled_policy : ¬ (policy .value).Handled := Bool.false_ne_true
@[simp] theorem not_handled_dependency (message : String) : ¬ (dependency message).Handled := Bool.false_ne_true

end HttpError

variable (a : HttpAdapter) (call : HttpCall) (h : Hop)

/-! ### Arriving at a URL -/

/-- The scheduler gives the slot it is asked for, or an error that is handled. -/
def SlotHandled (s : Exchange) : Prop :=
  (schedulerHost a.codecs s.current).isOk → h.elapsed < s.context.request.budget.deadlineSeconds →
    ∀ err, h.slot = .error err → err.Handled

/-- The policy can read the URL and the one before it, and the resolver the host. -/
def PolicyHandled (s : Exchange) : Prop := a.policy.ReadsDestination h.addresses s.current s.previous

/-- A refresh that is asked for ends in a credential or in an error that is handled. -/
def RefreshHandled (s : Exchange) (existing : CredentialMaterial) (alreadyAttempted : Bool) : Prop :=
  alreadyAttempted = false → isSafeMethod s.method = true → ∀ session, refreshSession s.context existing = some session →
    session.bindsMaterial existing = true → a.refreshes = true →
      ∀ reason err, acceptRefresh session existing h.refreshedAt h.refresh = .error (reason, err) → err.Handled

/-- The provider answers, the URL has an origin, and a credential of another origin can
be refused. -/
def CredentialHandled (s : Exchange) : Prop :=
  call.credentialMode = .request ∧ s.context.request.authenticationRef.isSome ∧ s.credential = none →
    (∀ err, obtainCredential s.context h.resolve = .error err → err.Handled) ∧
    ∀ m, obtainCredential s.context h.resolve = .ok m →
      (m.appliesTo a.codecs s.current = none → (originError a.codecs s.current).Handled) ∧
      (m.appliesTo a.codecs s.current = some false → (a.policy.sanitizeUrl s.current).isSome) ∧
      (m.appliesTo a.codecs s.current = some true → m.expired h.checkedAt = true → m.capabilityId = "bearer_token" →
        RefreshHandled a h s m s.refreshAttempted)

/-- A new URL can be taken apart, and its addresses are known. -/
def EntryHandled (s : Exchange) : Prop :=
  s.current ∉ s.visited → ∃ parts, urlsplit a.codecs.toTables s.current.toList = some parts ∧
    (a.pinned = true → s.validated.of a.codecs (parts.hostname a.codecs.toTables) ≠ [])

/-- The URL has an origin to compare that of the login cookies with. -/
def CookieOriginHandled (s : Exchange) : Prop :=
  s.ephemeralCookieOrigin.isSome → canonicalOrigin a.codecs s.current = none → (originError a.codecs s.current).Handled

theorem schedulerHost_handled (c : Codecs) (url : String) {err : HttpError} (herr : schedulerHost c url = .error err) :
    err.Handled := by
  unfold schedulerHost at herr
  split at herr
  · cases herr
    rfl
  · dsimp only at herr
    split at herr
    · cases herr
      rfl
    · cases herr

theorem takeSlot_handled (s : Exchange) :
    (takeSlot a h).RaisesOnly s HttpError.Handled ↔ SlotHandled a h s := by
  simp only [RaisesOnly, SlotHandled, takeSlot, withinDeadline, meets_bind, meets_get, meets_ofExcept, meets_check,
    HttpError.handled_deadline]
  cases hhost : schedulerHost a.codecs s.current with
  | error err => simp [schedulerHost_handled _ _ hhost, Except.isOk, Except.toBool]
  | ok host => simp [Except.isOk, Except.toBool]

theorem evaluateCurrent_handled (s : Exchange) :
    (evaluateCurrent a h).RaisesOnly s HttpError.Handled ↔ PolicyHandled a h s := by
  rw [PolicyHandled, ← SafeUrlPolicy.evaluate_value_iff s.validated]
  simp only [RaisesOnly, evaluateCurrent, meets_bind, meets_get, meets_ofExcept]
  cases hpolicy : a.policy.evaluate s.validated h.addresses s.current s.previous with
  | ok evaluated => simp [Except.mapError]
  | error err => cases err <;> simp [Except.mapError]

theorem reportRefresh_handled (capabilityId : String) (accepted : Except (String × HttpError) CredentialMaterial)
    (s : Exchange) : (reportRefresh capabilityId accepted).RaisesOnly s HttpError.Handled ↔
      ∀ reason err, accepted = .error (reason, err) → err.Handled := by
  cases accepted with
  | error e =>
    obtain ⟨reason, err⟩ := e
    simp [RaisesOnly, reportRefresh, recordRuntimeEvent, record]
  | ok m => simp [RaisesOnly, reportRefresh, recordOutcome, recordRuntimeEvent, record]

theorem refreshCredential_handled (existing : CredentialMaterial) (alreadyAttempted : Bool) (s : Exchange) :
    (refreshCredential a h existing alreadyAttempted).RaisesOnly s HttpError.Handled ↔
      RefreshHandled a h s existing alreadyAttempted := by
  have hreport := reportRefresh_handled
  unfold RaisesOnly at hreport
  simp only [RaisesOnly, RefreshHandled, refreshCredential, recordRuntimeEvent, record, meets_bind, meets_get,
    meets_ofOption, meets_check, meets_modify, hreport, HttpError.handled_authExpired, HttpError.handled_authRequired]
  simp

theorem settleCredential_handled (s : Exchange) :
    (settleCredential a call h).RaisesOnly s HttpError.Handled ↔ CredentialHandled a call h s := by
  have hrefresh := refreshCredential_handled a h
  unfold RaisesOnly at hrefresh
  simp only [RaisesOnly, CredentialHandled, settleCredential, meets_bind, meets_get, meets_when]
  refine (and_iff_left fun _ => trivial).trans (imp_congr_right fun _ => ?_)
  cases hobtained : obtainCredential s.context h.resolve with
  | error err => simp
  | ok m =>
    cases happlies : m.appliesTo a.codecs s.current with
    | none => simp [happlies]
    | some applies =>
      cases applies with
      | false =>
        -- The credential of another origin is refused, and nothing comes after that.
        simp only [refuseCredential, sanitized, recordOutcome, record, meets_bind, meets_ofExcept, meets_ofOption,
          meets_modify, meets_raise]
        cases a.policy.sanitizeUrl s.current <;> simp [happlies]
      | true =>
        simp only [adoptCredential, meets_ofExcept, meets_ofOption, meets_modify, meets_check, hrefresh]
        simp [happlies, RefreshHandled]

theorem enterUrl_handled (s : Exchange) :
    (enterUrl a).RaisesOnly s HttpError.Handled ↔ EntryHandled a s := by
  simp only [RaisesOnly, EntryHandled, enterUrl, splitUrl, meets_bind, meets_get, meets_check, meets_modify,
    meets_ofOption, HttpError.handled_execution]
  cases hparts : urlsplit a.codecs.toTables s.current.toList with
  | none => simp
  | some parts => simp

theorem withholdCookies_handled (s : Exchange) :
    (withholdCookies a).RaisesOnly s HttpError.Handled ↔ CookieOriginHandled a s := by
  simp only [RaisesOnly, CookieOriginHandled, withholdCookies, meets_bind, meets_get]
  cases horigin : s.ephemeralCookieOrigin with
  | none => simp
  | some o => simp

/-! ### Robots -/

/-- The bytes of these chunks. -/
def wholeBody (chunks : List Chunk) : List UInt8 := chunks.flatMap (·.data)

theorem readRobots_after {C : List UInt8 → Prop} (consumedBefore : Nat) (maximumBytes : Int) (chunks : List Chunk)
    (body : List UInt8) (s : Exchange) (hbody : (body.length : Int) ≤ maximumBytes) :
    (readRobots consumedBefore maximumBytes chunks body).After s (fun body _ => C body) ↔
      (((body ++ wholeBody chunks).length : Int) ≤ maximumBytes → C (body ++ wholeBody chunks)) := by
  induction chunks generalizing body s with
  | nil => simp [After, readRobots, wholeBody, hbody]
  | cons chunk rest ih =>
    have hwhole : body ++ wholeBody (chunk :: rest) = body ++ chunk.data ++ wholeBody rest := by simp [wholeBody]
    simp only [After, readRobots, meets_bind, meets_modify, meets_check, imp_true_iff, and_true, decide_eq_true_eq]
    rw [hwhole]
    by_cases hfits : ((body ++ chunk.data).length : Int) ≤ maximumBytes
    · simp only [hfits, true_imp_iff]
      exact ih (body ++ chunk.data) _ hfits
    · -- What does not fit now does not fit later.
      refine iff_of_true (fun hno => absurd hno hfits) fun hlong => absurd ?_ hfits
      rw [@List.length_append _ (body ++ chunk.data)] at hlong
      omega

theorem readRobots_handled (consumedBefore : Nat) (maximumBytes : Int) (chunks : List Chunk) (body : List UInt8)
    (s : Exchange) : (readRobots consumedBefore maximumBytes chunks body).RaisesOnly s HttpError.Handled := by
  induction chunks generalizing body s with
  | nil => trivial
  | cons chunk rest ih =>
    unfold RaisesOnly at ih
    simp [RaisesOnly, readRobots, ih]

theorem robotsFailed_handled {α : Type} (err : HttpError) (s : Exchange) :
    (robotsFailed err : HttpM α).RaisesOnly s HttpError.Handled ↔ err.Handled := by
  cases err <;> simp [RaisesOnly, robotsFailed, recordOutcome, record]

theorem judgeRobots_handled (robotsUrl target : String) (body : List UInt8) (s : Exchange) :
    (judgeRobots a robotsUrl target body).RaisesOnly s HttpError.Handled ↔
      (a.canFetch robotsUrl body a.userAgent target).isSome ∧ (a.policy.sanitizeUrl target).isSome := by
  simp only [RaisesOnly, judgeRobots, sanitized, recordOutcome, recordDecision, record, meets_bind, meets_ofOption,
    meets_modify, meets_ite, meets_raise, HttpError.handled_blocked]
  cases a.canFetch robotsUrl body a.userAgent target <;> cases a.policy.sanitizeUrl target <;> simp

/-- What a `robots.txt` is answered with can be weighed. -/
def RobotsAnswerHandled (robotsUrl target : String) (maximumBytes : Int) (response : Response) : Prop :=
  (response.status ≠ 200 → (a.policy.sanitizeUrl target).isSome) ∧
  (response.status = 200 → ((wholeBody response.chunks).length : Int) ≤ maximumBytes →
    (∀ err, response.failure = some err → err.Handled) ∧
    (response.failure = none →
      (a.canFetch robotsUrl (wholeBody response.chunks) a.userAgent target).isSome ∧ (a.policy.sanitizeUrl target).isSome))

theorem weighRobots_handled (robotsUrl target : String) (maximumBytes : Int) (response : Response) (s : Exchange)
    (hmaximum : 0 < maximumBytes) :
    (weighRobots a robotsUrl target maximumBytes response).RaisesOnly s HttpError.Handled ↔
      RobotsAnswerHandled a robotsUrl target maximumBytes response := by
  unfold weighRobots RobotsAnswerHandled
  by_cases hstatus : response.status = 200
  · rw [if_neg (not_not.mpr hstatus)]
    have hread := readRobots_after s.auxiliaryBytes maximumBytes response.chunks [] s hmaximum.le
      (C := fun body => (∀ err, response.failure = some err → err.Handled) ∧ (response.failure = none →
        (a.canFetch robotsUrl body a.userAgent target).isSome ∧ (a.policy.sanitizeUrl target).isSome))
    rw [raisesOnly_get_bind, raisesOnly_bind, and_iff_right (readRobots_handled _ _ _ _ _)]
    -- Whether the answer is handled does not depend on the state it is weighed in.
    refine (After.congr fun body t => ?_).trans (hread.trans (by simp [hstatus]))
    cases hfailure : response.failure with
    | some err => simp [robotsFailed_handled]
    | none =>
      rw [raisesOnly_bind, judgeRobots_handled]
      exact (and_iff_left (after_true _)).trans (by simp)
  · rw [if_pos hstatus]
    simp only [RaisesOnly, sanitized, recordDecision, recordOutcome, record, meets_bind, meets_ofOption, meets_modify,
      meets_pure]
    cases a.policy.sanitizeUrl target <;> simp [hstatus]

/-- The `robots.txt` that is asked for is answered, or its failure is handled. -/
def RobotsHandled (s : Exchange) : Prop :=
  ∃ parts, urlsplit a.codecs.toTables s.current.toList = some parts ∧
    let origin := String.ofList parts.scheme ++ "://" ++ String.ofList parts.netloc
    let maximumBytes := min 512000 (s.maximumDecompressedBytes - s.auxiliaryBytes)
    s.context.request.intent = "crawl" ∧ origin ∉ s.robotsChecked → 0 < maximumBytes →
      (∀ err, h.robots = .error err → err.Handled) ∧
      ∀ response, h.robots = .ok response →
        RobotsAnswerHandled a (origin ++ "/robots.txt") s.current maximumBytes response

theorem enforceRobots_handled (origin : String) (maximumBytes : Int) (s : Exchange) :
    (enforceRobots a h origin maximumBytes).RaisesOnly s HttpError.Handled ↔ (0 < maximumBytes →
      (∀ err, h.robots = .error err → err.Handled) ∧
      ∀ response, h.robots = .ok response →
        RobotsAnswerHandled a (origin ++ "/robots.txt") s.current maximumBytes response) := by
  simp only [RaisesOnly, enforceRobots, meets_bind, meets_check, meets_modify, HttpError.handled_budgetExceeded,
    imp_true_iff, and_true, decide_eq_true_eq]
  refine imp_congr_right fun hmaximum => ?_
  cases hrobots : h.robots with
  | error err =>
    have hfailed := robotsFailed_handled (α := Nat) err
    unfold RaisesOnly at hfailed
    simp [hfailed]
  | ok response =>
    have hweighed := fun t => weighRobots_handled a (origin ++ "/robots.txt") s.current maximumBytes response t hmaximum
    unfold RaisesOnly at hweighed
    simp only [meets_bind, meets_modify, meets_get, hweighed]
    simp

theorem checkRobots_handled (s : Exchange) :
    (checkRobots a h).RaisesOnly s HttpError.Handled ↔ RobotsHandled a h s := by
  have henforced := enforceRobots_handled a h
  unfold RaisesOnly at henforced
  simp only [RaisesOnly, RobotsHandled, checkRobots, splitUrl, meets_bind, meets_get, meets_ofOption, meets_ite,
    meets_modify, meets_pure, henforced]
  cases urlsplit a.codecs.toTables s.current.toList <;> simp

/-! ### Sending the request -/

/-- The URL can be shown. -/
def RateHandled (s : Exchange) : Prop := (a.policy.sanitizeUrl s.current).isSome

theorem recordRateLimit_handled (s : Exchange) :
    (recordRateLimit a).RaisesOnly s HttpError.Handled ↔ RateHandled a s := by
  simp only [RaisesOnly, RateHandled, recordRateLimit, sanitized, recordDecision, recordOutcome, record, meets_bind,
    meets_get, meets_ofOption, meets_modify]
  cases a.policy.sanitizeUrl s.current <;> simp

/-- The URL has an origin to compare that of the credential with, and can be shown. -/
def ApplyHandled (s : Exchange) : Prop :=
  ∀ m, s.credential = some m →
    (m.appliesTo a.codecs s.current = none → (originError a.codecs s.current).Handled) ∧
    (m.appliesTo a.codecs s.current ≠ none → (a.policy.sanitizeUrl s.current).isSome)

theorem applyCredential_handled (s : Exchange) :
    (applyCredential a).RaisesOnly s HttpError.Handled ↔ ApplyHandled a s := by
  simp only [RaisesOnly, ApplyHandled, applyCredential, meets_bind, meets_get]
  cases hcredential : s.credential with
  | none => simp
  | some m =>
    simp only [sanitized, recordDecision, recordCredentialUse, recordOutcome, record, meets_bind, meets_get, meets_ofOption,
      meets_modify, meets_ite, meets_when, meets_pure]
    cases happlies : m.appliesTo a.codecs s.current <;> cases a.policy.sanitizeUrl s.current <;> simp [happlies]

/-- The login cookies can be sent to the URL. -/
def CookiesHandled (s : Exchange) : Prop :=
  call.allowEphemeralLoginCookies = true →
    (canonicalOrigin a.codecs s.current = none → (originError a.codecs s.current).Handled) ∧
    (canonicalOrigin a.codecs s.current ≠ none → s.ephemeralCookieOrigin = canonicalOrigin a.codecs s.current →
      renderEphemeralCookieHeader a.codecs s.ephemeralCookies s.current ≠ .error .value)

theorem applyCookies_handled (headers : Dict String String) (s : Exchange) :
    (applyCookies a call headers).RaisesOnly s HttpError.Handled ↔ CookiesHandled a call s := by
  simp only [RaisesOnly, CookiesHandled, applyCookies, meets_bind, meets_get, meets_ite, meets_ofOption,
    meets_ofExcept, meets_pure]
  refine (and_iff_left fun _ => trivial).trans (imp_congr_right fun _ => ?_)
  cases horigin : canonicalOrigin a.codecs s.current with
  | none => simp
  | some origin =>
    cases hrendered : renderEphemeralCookieHeader a.codecs s.ephemeralCookies s.current with
    | error err => cases err <;> simp [Except.mapError, HttpError.ofCookie]
    | ok rendered =>
      obtain ⟨cookies, header⟩ := rendered
      cases header <;> simp [Except.mapError]

/-- The slot and the answer of the publisher come, or an error that is handled. -/
def SendHandled (robotsFetched : Bool) (s : Exchange) : Prop :=
  (robotsFetched = true → h.publisherElapsed < s.context.request.budget.deadlineSeconds →
    ∀ err, h.publisherSlot = .error err → err.Handled) ∧
  ((robotsFetched = true →
      h.publisherElapsed < s.context.request.budget.deadlineSeconds ∧ h.publisherSlot = .ok ()) →
    ∀ err, h.reply = .error err → err.Handled)

theorem sendRequest_handled (robotsFetched : Bool) (headers : Dict String String) (cookies : List EphemeralCookie)
    (s : Exchange) : (sendRequest h robotsFetched headers cookies).RaisesOnly s HttpError.Handled ↔
      SendHandled h robotsFetched s := by
  simp only [RaisesOnly, SendHandled, sendRequest, takePublisherSlot, withinDeadline, meets_bind, meets_get, meets_modify,
    meets_when, meets_check, meets_ofExcept, meets_pure, HttpError.handled_deadline]
  cases robotsFetched with
  | false => simp
  | true => cases h.publisherSlot <;> simp

/-! ### The answer -/

/-- The redirect needs no second approval, or it can be shown in the refusal. -/
def RedirectHandled (response : Response) (redirected : String) (s : Exchange) : Prop :=
  let status := response.status
  let refused := (call.allowEphemeralLoginCookies = true ∧ (status = 307 ∨ status = 308)) ∨
    (¬ (status = 303 ∨ ((status = 301 ∨ status = 302) ∧ s.method = "POST")) ∧ s.requestBody.isSome)
  (refused → (a.policy.sanitizeUrl redirected).isSome) ∧
  (¬ refused → call.allowEphemeralLoginCookies = true → sameExactOrigin a.codecs s.current redirected = true →
    captureEphemeralLoginCookies a.codecs h.capturedAt response.toResponseCookies s.current s.ephemeralCookies ≠
      .error .value)

theorem refuseReplay_handled (redirected : String) (s : Exchange) {Q : Unit → Exchange → Prop} :
    (refuseReplay a redirected).Meets s Q (fun err _ => err.Handled) ↔ (a.policy.sanitizeUrl redirected).isSome := by
  simp only [refuseReplay, sanitized, meets_bind, meets_ofOption, meets_raise, HttpError.handled_blocked]
  cases a.policy.sanitizeUrl redirected <;> simp

theorem handCookies_handled (response : Response) (redirected : String) (s : Exchange) :
    (handCookies a h response redirected).RaisesOnly s HttpError.Handled ↔
      (sameExactOrigin a.codecs s.current redirected = true →
        captureEphemeralLoginCookies a.codecs h.capturedAt response.toResponseCookies s.current s.ephemeralCookies ≠
          .error .value) := by
  simp only [RaisesOnly, handCookies, meets_bind, meets_get, meets_ite, meets_ofExcept, meets_modify]
  refine (and_iff_left fun _ => trivial).trans (imp_congr_right fun _ => ?_)
  cases captureEphemeralLoginCookies a.codecs h.capturedAt response.toResponseCookies s.current s.ephemeralCookies with
  | error err => cases err <;> simp [Except.mapError, HttpError.ofCookie]
  | ok captured => simp [Except.mapError]

theorem redirectTo_handled (response : Response) (redirected : String) (s : Exchange) :
    (redirectTo a call h response redirected).RaisesOnly s HttpError.Handled ↔
      RedirectHandled a call h response redirected s := by
  have hhanded := handCookies_handled a h response redirected
  unfold RaisesOnly at hhanded
  simp only [RaisesOnly, RedirectHandled, redirectTo, switchMethod, meets_bind, meets_get, meets_when, meets_ite,
    meets_modify, meets_pure, refuseReplay_handled, hhanded]
  by_cases hreplay : call.allowEphemeralLoginCookies = true ∧ (response.status = 307 ∨ response.status = 308)
  · simp [hreplay]
  by_cases hswitch : response.status = 303 ∨ ((response.status = 301 ∨ response.status = 302) ∧ s.method = "POST")
  · simp [hreplay, hswitch]
  · by_cases hbody : s.requestBody.isSome = true <;> simp [hreplay, hswitch, hbody]

/-- Where a redirect points can be joined with the URL it came from. -/
def FollowHandled (response : Response) (s : Exchange) : Prop :=
  ∀ location, response.location.filter (!·.isEmpty) = some location →
    ∃ joined, urljoin a.codecs.toTables s.current.toList location.toList = some joined ∧
      RedirectHandled a call h response (String.ofList joined) s

theorem followRedirect_handled (response : Response) (s : Exchange) :
    (followRedirect a call h response).RaisesOnly s HttpError.Handled ↔ FollowHandled a call h response s := by
  have hredirected := redirectTo_handled a call h response
  unfold RaisesOnly at hredirected
  simp only [RaisesOnly, FollowHandled, followRedirect, meets_bind, meets_modify, meets_get, meets_ofOption, hredirected,
    HttpError.handled_execution, imp_true_iff, and_true]
  refine forall_congr' fun location => imp_congr_right fun _ => ?_
  cases urljoin a.codecs.toTables s.current.toList location.toList with
  | none => simp
  | some joined => simp [RedirectHandled]

/-- A refresh after a rejected token is handled. -/
def RetryHandled (m : CredentialMaterial) (s : Exchange) : Prop :=
  s.context.request.authenticationRef.isSome → s.refreshAttempted = false → RefreshHandled a h s m false

theorem retryExpired_handled (m : CredentialMaterial) (s : Exchange) :
    (retryExpired a h m).RaisesOnly s HttpError.Handled ↔ RetryHandled a h m s := by
  have hrefresh := refreshCredential_handled a h
  unfold RaisesOnly at hrefresh
  simp only [RaisesOnly, RetryHandled, retryExpired, adoptCredential, meets_bind, meets_get, meets_check, meets_modify,
    hrefresh, HttpError.handled_authExpired, imp_true_iff, and_true]
  simp only [RefreshHandled, Bool.and_eq_true, Bool.not_eq_true']
  exact ⟨fun hguarded href hattempted _ hsafe => hguarded ⟨⟨href, hattempted⟩, hsafe⟩ trivial hsafe,
    fun hretry hguard hfirst hsafe => hretry hguard.1.1 hguard.1.2 hfirst hsafe⟩

/-- A body that is read to its end ends well, or with an error that is handled. -/
def FinishHandled (response : Response) (s : Exchange) : Prop :=
  ∀ announced, contentLength response = .ok announced →
    (announced.all fun n => ((n + s.auxiliaryBytes : Nat) : Int) ≤ s.maximumWireBytes) = true →
      (readBody (announced.getD 0) response.chunks []).After s fun _ _ =>
        ∀ err, response.failure = some err → err.Handled

theorem contentLength_handled (response : Response) {err : HttpError} (herr : contentLength response = .error err) :
    err.Handled := by
  unfold contentLength at herr
  split at herr
  · cases herr
  · cases herr
    rfl
  · split at herr
    · cases herr
      rfl
    · cases herr

theorem readBody_handled (announced : Nat) (chunks : List Chunk) (body : List UInt8) (s : Exchange) :
    (readBody announced chunks body).RaisesOnly s HttpError.Handled := by
  induction chunks generalizing body s with
  | nil => trivial
  | cons chunk rest ih =>
    unfold RaisesOnly at ih
    simp [RaisesOnly, readBody, ih]

theorem finish_handled (response : Response) (s : Exchange) :
    (finish call response).RaisesOnly s HttpError.Handled ↔ FinishHandled response s := by
  have hopened : (finish call response).RaisesOnly s HttpError.Handled ↔
      ∀ announced, contentLength response = .ok announced →
        (announced.all fun n => ((n + s.auxiliaryBytes : Nat) : Int) ≤ s.maximumWireBytes) = true →
          ((readBody (announced.getD 0) response.chunks [] : HttpM (List UInt8)) >>= fun _ =>
            (ofExcept (response.failure.elim (.ok ()) .error) : HttpM Unit)).RaisesOnly s HttpError.Handled := by
    simp only [RaisesOnly, finish, meets_bind, meets_get, meets_check, meets_ofExcept, meets_when, meets_modify,
      meets_pure, HttpError.handled_budgetExceeded]
    cases hlength : contentLength response with
    | error err => simp [contentLength_handled response hlength]
    | ok announced => simp
  rw [hopened]
  unfold FinishHandled
  refine forall_congr' fun announced => imp_congr_right fun _ => imp_congr_right fun _ => ?_
  rw [raisesOnly_bind, and_iff_right (readBody_handled _ _ _ _)]
  refine After.congr fun _ _ => ?_
  cases response.failure <;> simp [RaisesOnly]

/-- What an answer leads to is handled. -/
def AnswerHandled (credentialApplied : Bool) (response : Response) (s : Exchange) : Prop :=
  if 300 ≤ response.status ∧ response.status ≤ 399 then FollowHandled a call h response s
  else ¬ (response.status = 404 ∨ response.status = 410) →
    match expiredCredential s credentialApplied response with
    | some m => RetryHandled a h m s
    | none => ¬ (response.status = 401 ∨ response.status = 403) → 200 ≤ response.status ∧ response.status ≤ 299 →
        FinishHandled response s

theorem handleResponse_handled (credentialApplied : Bool) (response : Response) (s : Exchange) :
    (handleResponse a call h credentialApplied response).RaisesOnly s HttpError.Handled ↔
      AnswerHandled a call h credentialApplied response s := by
  have hreturned : ∀ {α : Type} {x : HttpM α} (r : α → Option HttpResult),
      (x >>= fun v => pure (r v)).RaisesOnly s HttpError.Handled ↔ x.RaisesOnly s HttpError.Handled := by
    intro α x r
    rw [raisesOnly_bind]
    exact and_iff_left (after_true _)
  unfold handleResponse AnswerHandled
  rw [raisesOnly_get_bind]
  dsimp only
  split
  · rw [hreturned, followRedirect_handled]
  split
  · rename_i hgone
    simp [RaisesOnly, hgone]
  rename_i hhere
  rw [imp_iff_right hhere]
  cases expiredCredential s credentialApplied response with
  | some m => rw [hreturned, retryExpired_handled]
  | none =>
    dsimp only
    split
    · rename_i hdenied
      simp [RaisesOnly, hdenied]
    rename_i hallowed
    rw [imp_iff_right hallowed]
    split
    · rename_i hbad
      simp [RaisesOnly, hbad]
    · rename_i hgood
      rw [hreturned, finish_handled, imp_iff_right (not_not.mp hgood)]

/-! ### One turn -/

/-- **Each step the turn comes to is handled.** -/
def TurnHandled (s : Exchange) : Prop :=
  SlotHandled a h s ∧ (takeSlot a h).After s fun _ s =>
  PolicyHandled a h s ∧ (evaluateCurrent a h).After s fun _ s =>
  CredentialHandled a call h s ∧ (settleCredential a call h).After s fun _ s =>
  EntryHandled a s ∧ (enterUrl a).After s fun _ s =>
  CookieOriginHandled a s ∧ (withholdCookies a).After s fun _ s =>
  RobotsHandled a h s ∧ (checkRobots a h).After s fun robotsFetched s =>
  RateHandled a s ∧ (recordRateLimit a).After s fun _ s =>
  ApplyHandled a s ∧ (applyCredential a).After s fun applied s =>
  CookiesHandled a call s ∧ (applyCookies a call applied.1).After s fun sent s =>
  SendHandled h robotsFetched s ∧ (sendRequest h robotsFetched sent.1 sent.2).After s fun response s =>
  AnswerHandled a call h applied.2 response s

theorem hop_handled (s : Exchange) :
    (hop a call h).RaisesOnly s HttpError.Handled ↔ TurnHandled a call h s := by
  simp only [hop, arrive, exchangeCurrent, TurnHandled, Program.bind_assoc, raisesOnly_bind, takeSlot_handled,
    evaluateCurrent_handled, settleCredential_handled, enterUrl_handled, withholdCookies_handled, checkRobots_handled,
    recordRateLimit_handled, applyCredential_handled, applyCookies_handled, sendRequest_handled, handleResponse_handled]

/-! ### One turn over HTTP/3 -/

/-- The call is without authentication, and its URL can be taken apart. -/
def EntryHttp3Handled (s : Exchange) : Prop :=
  s.context.request.authenticationRef = none ∧ (urlsplit a.codecs.toTables s.current.toList).isSome

theorem enterHttp3_handled (s : Exchange) :
    (enterHttp3 a).RaisesOnly s HttpError.Handled ↔ EntryHttp3Handled a s := by
  simp only [RaisesOnly, EntryHttp3Handled, enterHttp3, splitUrl, recordOutcome, record, meets_bind, meets_get, meets_when,
    meets_raise, meets_modify, meets_ofOption, meets_check, HttpError.handled_execution]
  cases s.context.request.authenticationRef <;> cases urlsplit a.codecs.toTables s.current.toList <;> simp

/-- Where an HTTP/3 redirect points can be joined with the URL it came from. -/
def AnswerHttp3Handled (result : Http3Response) (s : Exchange) : Prop :=
  ((s.transferred + result.body.length : Nat) : Int) ≤ s.maximumWireBytes →
    ((s.transferred + result.body.length : Nat) : Int) ≤ s.maximumDecompressedBytes →
      [301, 302, 303, 307, 308].contains result.status = true → result.redirectUrl.isEmpty = false →
        (urljoin a.codecs.toTables s.current.toList result.redirectUrl.toList).isSome

theorem handleHttp3_handled (result : Http3Response) (s : Exchange) :
    (handleHttp3 a result).RaisesOnly s HttpError.Handled ↔ AnswerHttp3Handled a result s := by
  simp only [RaisesOnly, AnswerHttp3Handled, handleHttp3, meets_bind, meets_modify, meets_get, meets_check, meets_ite,
    meets_ofOption, meets_raise, meets_pure, HttpError.handled_budgetExceeded, HttpError.handled_execution,
    HttpError.handled_notFound, HttpError.handled_authRequired]
  cases urljoin a.codecs.toTables s.current.toList result.redirectUrl.toList <;> simp

/-- The HTTP/3 client that is asked answers, or raises an error that is handled. -/
def SendHttp3Handled (s : Exchange) : Prop :=
  0 < min (s.maximumWireBytes - s.transferred) (s.maximumDecompressedBytes - s.transferred) →
    h.publisherElapsed < s.context.request.budget.deadlineSeconds →
      (∀ err, h.http3 = .error err → err.Handled) ∧
      ∀ result, h.http3 = .ok result → AnswerHttp3Handled a result s

/-- **Each step the HTTP/3 turn comes to is handled.** -/
def Http3TurnHandled (s : Exchange) : Prop :=
  SlotHandled a h s ∧ (takeSlot a h).After s fun _ s =>
  PolicyHandled a h s ∧ (evaluateCurrent a h).After s fun _ s =>
  EntryHttp3Handled a s ∧ (enterHttp3 a).After s fun _ s =>
  RateHandled a s ∧ (recordRateLimit a).After s fun _ s =>
  SendHttp3Handled a h s

theorem hopHttp3_handled (s : Exchange) :
    (hopHttp3 a h).RaisesOnly s HttpError.Handled ↔ Http3TurnHandled a h s := by
  have hanswer := handleHttp3_handled a
  unfold RaisesOnly at hanswer
  unfold hopHttp3 Http3TurnHandled
  rw [raisesOnly_bind, takeSlot_handled]
  refine and_congr_right' (After.congr fun _ t => ?_)
  rw [raisesOnly_bind, evaluateCurrent_handled]
  refine and_congr_right' (After.congr fun _ t => ?_)
  rw [raisesOnly_bind, enterHttp3_handled]
  refine and_congr_right' (After.congr fun _ t => ?_)
  rw [raisesOnly_bind, recordRateLimit_handled]
  refine and_congr_right' (After.congr fun _ t => ?_)
  simp only [RaisesOnly, SendHttp3Handled, withinDeadline, sendHttp3, meets_bind, meets_get, meets_check, meets_modify,
    meets_ofExcept, hanswer, HttpError.handled_budgetExceeded, HttpError.handled_deadline]
  cases h.http3 <;> simp [AnswerHttp3Handled]

/-! ### The call -/

/-- `k` turns, each of them going on, lead from `s` to `t`. -/
inductive Turned (turn : Hop → HttpM (Option HttpResult)) (world : Nat → Hop) (s : Exchange) : Nat → Exchange → Prop
  | start : Turned turn world s 0 s
  | next {k : Nat} {t u : Exchange} (hbefore : Turned turn world s k t) (hturn : turn (world k) t = (.ok none, u)) :
      Turned turn world s (k + 1) u

theorem Turned.cons {turn : Hop → HttpM (Option HttpResult)} {world : Nat → Hop} {s t u : Exchange} {k : Nat}
    (hfirst : turn (world 0) s = (.ok none, t)) (hrest : Turned turn (fun k => world (k + 1)) t k u) :
    Turned turn world s (k + 1) u := by
  induction hrest with
  | start => exact .next .start hfirst
  | next _ hturn ih => exact .next ih hturn

theorem Turned.uncons {turn : Hop → HttpM (Option HttpResult)} {world : Nat → Hop} {s u : Exchange} {k : Nat}
    (hturned : Turned turn world s k u) : k = 0 ∧ u = s ∨ ∃ j t, k = j + 1 ∧ turn (world 0) s = (.ok none, t) ∧
      Turned turn (fun k => world (k + 1)) t j u := by
  induction hturned with
  | start => exact .inl ⟨rfl, rfl⟩
  | @next k t u hbefore hturn ih =>
    obtain ⟨rfl, rfl⟩ | ⟨j, t', rfl, hfirst, hrest⟩ := ih
    · exact .inr ⟨0, u, rfl, hturn, .start⟩
    · exact .inr ⟨j + 1, t', rfl, hfirst, .next hrest hturn⟩

/-- A loop is handled if each turn it comes to is. -/
theorem hops_handled {turn : Hop → HttpM (Option HttpResult)} {C : Hop → Exchange → Prop}
    (hturn : ∀ h s, (turn h).RaisesOnly s HttpError.Handled ↔ C h s) (n : Nat) (world : Nat → Hop) (s : Exchange) :
    (hops turn n world).RaisesOnly s HttpError.Handled ↔
      ∀ k < n, ∀ t, Turned turn world s k t → C (world k) t := by
  induction n generalizing world s with
  | zero =>
    refine iff_of_true rfl ?_
    rintro k hk
    omega
  | succ n ih =>
    rw [hops, raisesOnly_bind, hturn, after_iff]
    constructor
    · rintro ⟨hfirst, hrest⟩ k hk t hturned
      obtain ⟨rfl, rfl⟩ | ⟨j, u, rfl, hgone, hturned'⟩ := hturned.uncons
      · exact hfirst
      · exact (ih _ _).mp (hrest none u hgone) j (by omega) t hturned'
    · intro hall
      refine ⟨hall 0 (by omega) s .start, fun result u hgone => ?_⟩
      cases result with
      | some result => trivial
      | none => exact (ih _ _).mpr fun k hk t hturned => hall (k + 1) (by omega) t (.cons hgone hturned)

/-- Everything before the first turn is handled: the request of the call can be made. -/
def OpeningHandled (world : World) (s : Exchange) : Prop :=
  0 < s.context.remainingBudget .bytes → 0 < s.context.remainingBudget .decompressedBytes →
    world.elapsed < s.context.request.budget.deadlineSeconds →
      ∀ err, initialRequest a call s.context = .error err → err.Handled

theorem prepare_handled (world : World) (s : Exchange) :
    (prepare a call world.elapsed).RaisesOnly s HttpError.Handled ↔ OpeningHandled a call world s := by
  simp only [RaisesOnly, OpeningHandled, prepare, withinDeadline, meets_bind, meets_get, meets_check, meets_ofExcept,
    meets_modify, HttpError.handled_budgetExceeded, HttpError.handled_deadline, HttpError.handled_execution]
  simp

theorem prepareHttp3_handled (s : Exchange) : (prepareHttp3 call).RaisesOnly s HttpError.Handled := by
  simp [RaisesOnly, prepareHttp3]

/-- **Each turn the call comes to is handled**, and what comes before the first. -/
def CallHandled (world : World) (s : Exchange) : Prop :=
  call.allowEphemeralLoginCookies = false ∨ call.credentialMode = .anonymous →
    if s.context.request.outputRequirements.contains "http_3" then
      call.allowEphemeralLoginCookies = false ∧ (prepareHttp3 call).After s fun _ s' =>
        ∀ k < turns s.context, ∀ t, Turned (hopHttp3 a) world.hop s' k t → Http3TurnHandled a (world.hop k) t
    else
      OpeningHandled a call world s ∧ (prepare a call world.elapsed).After s fun _ s' =>
        ∀ k < turns s.context, ∀ t, Turned (hop a call) world.hop s' k t → TurnHandled a call (world.hop k) t

/-- **A call raises nothing but what has a handler exactly if each turn is handled.** -/
theorem request_handled (world : World) (s : Exchange) :
    (request a call world).RaisesOnly s HttpError.Handled ↔ CallHandled a call world s := by
  have hchecked : ∀ {α : Type} (ok : Bool) (err : HttpError) (x : HttpM α),
      (check ok err >>= fun _ => x).RaisesOnly s HttpError.Handled ↔
        (ok = true → x.RaisesOnly s HttpError.Handled) ∧ (ok = false → err.Handled) := by
    intro α ok err x
    simp [RaisesOnly]
  unfold request CallHandled
  rw [hchecked, and_iff_left fun _ => HttpError.handled_execution _, raisesOnly_get_bind]
  refine imp_congr (by simp) ?_
  split
  · rw [hchecked]
    rw [raisesOnly_bind, and_iff_right (prepareHttp3_handled call s)]
    simp only [hops_handled (hopHttp3_handled a)]
    cases call.allowEphemeralLoginCookies <;> simp
  · rw [raisesOnly_bind, prepare_handled]
    exact and_congr_right' (After.congr fun _ t => hops_handled (hop_handled a call) _ _ _)

end Fetech.Http
