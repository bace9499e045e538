import Fetech.Http.Steps

/-! Which answers let a turn go on (the loop of `HTTPAdapter._request` in
`fetech/adapters/http.py`).

The conditions are on what the world answers and on the few data of a call that decide how it
goes on (`Stage`): a free slot, a URL the policy lets in and that is new, a redirect that
points somewhere, a token that is refreshed when the server calls it expired, a page within the
budgets. A turn whose answers are such does not raise, and moves the stage as they say
(`hop_moved`, `hop_retried`, `hop_landed`). -/
namespace Fetech.Http
open Lib Lib.Url Lib.Program

/-! ### What decides how a call goes on -/

structure Stage where
  request : FetchRequest
  secrets : Dict String Secret
  validated : ValidatedAddresses
  maximumWireBytes : Int
  maximumDecompressedBytes : Int
  method : String
  requestBody : Option (List UInt8)
  current : String
  previous : Option String
  visited : List String
  robotsChecked : List String
  auxiliaryBytes : Nat
  transferred : Nat
  credential : Option CredentialMaterial
  refreshAttempted : Bool
  cookies : CookieMap
  cookieOrigin : Option String

def Exchange.stage (s : Exchange) : Stage where
  request := s.context.request
  secrets := s.context.sensitiveState
  validated := s.validated
  maximumWireBytes := s.maximumWireBytes
  maximumDecompressedBytes := s.maximumDecompressedBytes
  method := s.method
  requestBody := s.requestBody
  current := s.current
  previous := s.previous
  visited := s.visited
  robotsChecked := s.robotsChecked
  auxiliaryBytes := s.auxiliaryBytes
  transferred := s.transferred
  credential := s.credential
  refreshAttempted := s.refreshAttempted
  cookies := s.ephemeralCookies
  cookieOrigin := s.ephemeralCookieOrigin

/-- A step that returns, on the stage `g` and with a result like `Q`. -/
def Reaches {α : Type} (x : HttpM α) (s : Exchange) (Q : α → Prop) (g : Stage) : Prop :=
  x.Meets s (fun r t => Q r ∧ t.stage = g) fun _ _ => False

/-- Records are no part of the stage. -/
def Staged {α : Type} (x : HttpM α) : Prop := ∀ s, x.Meets s (fun _ t => t.stage = s.stage) fun _ _ => False

namespace Staged

theorem bind {α β : Type} {x : HttpM α} {f : α → HttpM β} (hx : Staged x) (hf : ∀ r, Staged (f r)) :
    Staged (x >>= f) := by
  intro s
  rw [meets_bind]
  refine (hx s).mono (fun r t ht => ?_) fun _ _ h => h
  rw [← ht]
  exact hf r t

theorem record {f : ExecutionContext → ExecutionContext} (hrequest : ∀ ctx, (f ctx).request = ctx.request)
    (hsecrets : ∀ ctx, (f ctx).sensitiveState = ctx.sensitiveState) : Staged (record f) := by
  intro s
  simp only [Http.record, meets_modify, Exchange.stage, hrequest, hsecrets]

theorem recordDecision (d : PolicyDecision) : Staged (recordDecision d) := record (fun _ => rfl) fun _ => rfl

theorem recordOutcome (capabilityId : String) (status : OutcomeStatus) (stage : String)
    (details : List (String × Detail)) : Staged (recordOutcome capabilityId status stage details) :=
  record (fun _ => rfl) fun _ => rfl

theorem recordRuntimeEvent (eventType actor : String) (payload : List (String × Detail)) :
    Staged (recordRuntimeEvent eventType actor payload) := record (fun _ => rfl) fun _ => rfl

end Staged

variable (a : HttpAdapter) (call : HttpCall) (h : Hop)

/-! ### To the request of a turn -/

/-- The scheduler gives its slot in time. -/
structure Slotted (g : Stage) : Prop where
  host : (schedulerHost a.codecs g.current).isOk = true
  elapsed : h.elapsed < g.request.budget.deadlineSeconds
  slot : h.slot = .ok ()

theorem takeSlot_reaches {s : Exchange} (hs : Slotted a h s.stage) :
    (takeSlot a h).Meets s (fun _ t => t = s) fun _ _ => False := by
  obtain ⟨hhost, helapsed, hslot⟩ := hs
  have hin : h.elapsed < s.context.request.budget.deadlineSeconds := helapsed
  have hknown : (schedulerHost a.codecs s.current).isOk = true := hhost
  simp only [takeSlot, withinDeadline, meets_bind, meets_get, meets_ofExcept, meets_check, hslot, hin]
  cases hresult : schedulerHost a.codecs s.current with
  | error err =>
    rw [hresult] at hknown
    cases hknown
  | ok host => simp

/-- The policy lets the URL in, in its one spelling, and the transport has addresses to pin. -/
inductive Allowed (g : Stage) : Stage → Prop
  | intro (url : String) (decisions : List PolicyDecision) (validated : ValidatedAddresses) (parts : SplitResult)
      (heval : a.policy.evaluate g.validated h.addresses g.current g.previous = .ok (url, decisions, validated))
      (hparts : urlsplit a.codecs.toTables url.toList = some parts)
      (hpinned : validated.of a.codecs (parts.hostname a.codecs.toTables) ≠ []) :
      Allowed g {g with current := url, validated}

theorem evaluateCurrent_reaches {s : Exchange} {g : Stage} (hallowed : Allowed a h s.stage g) :
    (evaluateCurrent a h).Meets s (fun _ t => t.stage = g) fun _ _ => False := by
  cases hallowed with
  | intro url decisions validated parts heval =>
    have heval' : a.policy.evaluate s.validated h.addresses s.current s.previous = .ok (url, decisions, validated) := heval
    have hkept := recordDecisions_request decisions s.context
    simp only [evaluateCurrent, meets_bind, meets_get, meets_ofExcept_ok, meets_modify, heval', Except.mapError]
    simp only [Exchange.stage, hkept.1, hkept.2.2]

/-- A context with what a credential is obtained and refreshed from. -/
def Stage.context (g : Stage) : ExecutionContext := {request := g.request, sensitiveState := g.secrets}

/-- The provider refreshes a token: once in a call, for a safe method and through the session of
the call, and what it gives is unexpired and of the same kind. -/
structure Refreshed (g : Stage) (existing m : CredentialMaterial) : Prop where
  first : g.refreshAttempted = false
  safe : isSafeMethod g.method = true
  refreshes : a.refreshes = true
  session : ∃ session, refreshSession g.context existing = some session ∧ session.bindsMaterial existing = true ∧
    session.bindsMaterial m = true
  reply : h.refresh = .material m
  unexpired : m.expired h.refreshedAt = false
  kind : m.capabilityId = existing.capabilityId

/-- The stage with the refreshed credential. -/
def Stage.adopt (g : Stage) (m : CredentialMaterial) : Stage :=
  {g with
    credential := some m, refreshAttempted := true
    secrets := g.secrets.set "credential_material" (.material m)}

theorem refreshCredential_reaches {s : Exchange} {existing m : CredentialMaterial}
    (hrefreshed : Refreshed a h s.stage existing m) :
    Reaches (refreshCredential a h existing s.refreshAttempted) s (· = m) s.stage := by
  obtain ⟨hfirst, hsafe, hrefreshes, ⟨session, hsession, hexisting, hbinds⟩, hreply, hunexpired, hkind⟩ :=
    hrefreshed
  have hfirst' : s.refreshAttempted = false := hfirst
  have hsafe' : isSafeMethod s.method = true := hsafe
  have hsession' : refreshSession s.context existing = some session := hsession
  have haccepted : acceptRefresh session existing h.refreshedAt h.refresh = .ok m := by
    simp [acceptRefresh, hreply, hunexpired, hbinds, hkind]
  have hreport : Staged (do
      recordOutcome session.capabilityId.value .applied "auth" [("refreshed", .flag true)]
      recordRuntimeEvent "auth.refresh.succeeded" "auth" [("capability_id", .text session.capabilityId.value)]) :=
    (Staged.recordOutcome _ _ _ _).bind fun _ => Staged.recordRuntimeEvent _ _ _
  unfold Reaches
  simp only [refreshCredential, meets_bind, meets_get, meets_check_true, meets_ofOption_some, hfirst', hsafe', hsession',
    hrefreshes, hexisting, Bool.not_false, Bool.and_self]
  refine (Staged.recordRuntimeEvent _ _ _ s).mono (fun _ t ht => ?_) fun _ _ h => h
  rw [meets_modify, haccepted]
  have hmeets := hreport {t with refreshes := t.refreshes ++ [{
    method := t.method, session, existing, reply := h.refresh, receivedAt := h.refreshedAt}]}
  simp only [reportRefresh, meets_bind, meets_pure] at hmeets ⊢
  refine hmeets.mono (fun _ u hu => ?_) fun _ _ h => h
  exact hu.mono (fun _ v hv => ⟨trivial, hv.trans ht⟩) fun _ _ h => h

/-- The credential of the call, once it is needed: as it is held or given, or refreshed because it has
expired. -/
inductive Credentialed (g : Stage) : Stage → Prop
  | settled (hsettled : ¬(call.credentialMode = .request ∧ g.request.authenticationRef.isSome ∧ g.credential = none)) :
      Credentialed g g
  | obtained (m : CredentialMaterial)
      (hneeded : call.credentialMode = .request ∧ g.request.authenticationRef.isSome ∧ g.credential = none)
      (hobtained : obtainCredential g.context h.resolve = .ok m) (happlies : m.appliesTo a.codecs g.current = some true)
      (hunexpired : m.expired h.checkedAt = false) : Credentialed g {g with credential := some m}
  | refreshed (existing m : CredentialMaterial)
      (hneeded : call.credentialMode = .request ∧ g.request.authenticationRef.isSome ∧ g.credential = none)
      (hobtained : obtainCredential g.context h.resolve = .ok existing)
      (happlies : existing.appliesTo a.codecs g.current = some true) (hexpired : existing.expired h.checkedAt = true)
      (hbearer : existing.capabilityId = "bearer_token") (hrefreshed : Refreshed a h g existing m) :
      Credentialed g (g.adopt m)

theorem settleCredential_reaches {s : Exchange} {g : Stage} (hcredential : Credentialed a call h s.stage g) :
    (settleCredential a call h).Meets s (fun _ t => t.stage = g) fun _ _ => False := by
  rw [settleCredential, meets_bind, meets_get, meets_when]
  cases hcredential with
  | settled hsettled => exact ⟨fun hneeded => absurd hneeded hsettled, fun _ => rfl⟩
  | obtained m hneeded hobtained happlies hunexpired =>
    have hobtained' : obtainCredential s.context h.resolve = .ok m := hobtained
    have happlies' : m.appliesTo a.codecs s.current = some true := happlies
    refine ⟨fun _ => ?_, fun hno => absurd hneeded hno⟩
    simp [hobtained', happlies', hunexpired, Exchange.stage]
  | refreshed existing m hneeded hobtained happlies hexpired hbearer hrefreshed =>
    have hobtained' : obtainCredential s.context h.resolve = .ok existing := hobtained
    have happlies' : existing.appliesTo a.codecs s.current = some true := happlies
    refine ⟨fun _ => ?_, fun hno => absurd hneeded hno⟩
    have hrefresh := @refreshCredential_reaches a h {s with credential := some existing} existing m
      ⟨hrefreshed.first, hrefreshed.safe, hrefreshed.refreshes, hrefreshed.session, hrefreshed.reply,
        hrefreshed.unexpired, hrefreshed.kind⟩
    simp only [meets_bind, meets_ofExcept_ok, meets_ofOption_some, meets_modify, when, meets_check_true, hobtained', happlies',
      hexpired, hbearer, if_true, beq_self_eq_true]
    refine hrefresh.mono ?_ fun _ _ h => h
    rintro _ t ⟨rfl, ht⟩
    rw [adoptCredential, meets_modify]
    exact congrArg (Stage.adopt · _) ht

/-- The URL is new. -/
def Fresh (g : Stage) : Prop := g.current ∉ g.visited

def Stage.enter (g : Stage) : Stage := {g with visited := g.current :: g.visited}

theorem enterUrl_reaches {s : Exchange} {parts : SplitResult} (hfresh : Fresh s.stage)
    (hparts : urlsplit a.codecs.toTables s.current.toList = some parts)
    (hpinned : s.validated.of a.codecs (parts.hostname a.codecs.toTables) ≠ []) :
    (enterUrl a).Meets s (fun _ t => t.stage = s.stage.enter) fun _ _ => False := by
  have hnew : s.visited.contains s.current = false := by
    rw [← Bool.not_eq_true, List.contains_iff_mem]
    exact hfresh
  have hpinned' : (s.validated.of a.codecs (parts.hostname a.codecs.toTables)).isEmpty = false := by
    rw [List.isEmpty_eq_false_iff]
    exact hpinned
  simp only [enterUrl, splitUrl, meets_bind, meets_get, meets_check_true, meets_modify, meets_ofOption_some, hparts, hpinned',
    hnew, Bool.and_false, Bool.not_false]
  rfl

/-- Login cookies are kept on their origin. -/
inductive Withheld (g : Stage) : Stage → Prop
  | none (hnone : g.cookieOrigin = none) : Withheld g g
  | same (origin : String) (hsome : g.cookieOrigin = some origin)
      (horigin : canonicalOrigin a.codecs g.current = some origin) :
      Withheld g g
  | other (origin cookieOrigin : String) (hsome : g.cookieOrigin = some cookieOrigin)
      (horigin : canonicalOrigin a.codecs g.current = some origin) (hother : origin ≠ cookieOrigin) :
      Withheld g {g with cookies := ∅, cookieOrigin := none}

theorem withholdCookies_reaches {s : Exchange} {g : Stage} (hwithheld : Withheld a s.stage g) :
    (withholdCookies a).Meets s (fun _ t => t.stage = g) fun _ _ => False := by
  rw [withholdCookies, meets_bind, meets_get]
  cases hwithheld with
  | none hnone =>
    have hnone' : s.ephemeralCookieOrigin = none := hnone
    rw [hnone']
    rfl
  | same origin hsome horigin =>
    have hsome' : s.ephemeralCookieOrigin = some origin := hsome
    have horigin' : canonicalOrigin a.codecs s.current = some origin := horigin
    simp [hsome', horigin']
  | other origin cookieOrigin hsome horigin hother =>
    have hsome' : s.ephemeralCookieOrigin = some cookieOrigin := hsome
    have horigin' : canonicalOrigin a.codecs s.current = some origin := horigin
    simp [hsome', horigin', hother, Exchange.stage]

/-- A turn arrives: its slot is free, its URL allowed and new, its credential at hand. -/
inductive Arrives (g : Stage) : Stage → Prop
  | intro (g₁ g₂ g₃ : Stage) (hslot : Slotted a h g) (hallowed : Allowed a h g g₁)
      (hcredential : Credentialed a call h g₁ g₂) (hfresh : Fresh g₂) (hwithheld : Withheld a g₂.enter g₃) :
      Arrives g g₃

/-- Settling a credential leaves the URL and its addresses alone. -/
theorem Credentialed.kept {g g' : Stage} (hcredential : Credentialed a call h g g') :
    g'.current = g.current ∧ g'.validated = g.validated := by
  cases hcredential <;> exact ⟨rfl, rfl⟩

/-- A URL let in can be taken apart, and has addresses to pin. -/
theorem Allowed.pinned {g g' : Stage} (hallowed : Allowed a h g g') :
    ∃ parts, urlsplit a.codecs.toTables g'.current.toList = some parts ∧
      g'.validated.of a.codecs (parts.hostname a.codecs.toTables) ≠ [] := by
  cases hallowed with
  | intro url decisions validated parts _ hparts hpinned => exact ⟨parts, hparts, hpinned⟩

theorem arrive_reaches {s : Exchange} {g : Stage} (harrives : Arrives a call h s.stage g) :
    (arrive a call h).Meets s (fun _ t => t.stage = g) fun _ _ => False := by
  cases harrives with
  | intro g₁ g₂ g₃ hslot hallowed hcredential hfresh hwithheld =>
    rw [arrive, meets_bind]
    refine (takeSlot_reaches a h hslot).mono ?_ fun _ _ h => h
    rintro _ _ rfl
    rw [meets_bind]
    refine (evaluateCurrent_reaches a h hallowed).mono (fun _ t ht => ?_) fun _ _ h => h
    subst ht
    rw [meets_bind]
    refine (settleCredential_reaches a call h hcredential).mono (fun _ u hu => ?_) fun _ _ h => h
    subst hu
    rw [meets_bind]
    obtain ⟨parts, hparts, hpinned⟩ := hallowed.pinned
    obtain ⟨hcurrent, hvalidated⟩ := hcredential.kept
    rw [← hcurrent] at hparts
    rw [← hvalidated] at hpinned
    refine (enterUrl_reaches a hfresh hparts hpinned).mono (fun _ v hv => ?_) fun _ _ h => h
    rw [← hv] at hwithheld
    exact withholdCookies_reaches a hwithheld

/-! ### Robots -/

/-- The site of a URL, as its robots are asked for. -/
def site (parts : SplitResult) : String := String.ofList parts.scheme ++ "://" ++ String.ofList parts.netloc

/-- The most a `robots.txt` may decode to. -/
def Stage.robotsBytes (g : Stage) : Int := min 512000 (g.maximumDecompressedBytes - g.auxiliaryBytes)

/-- On a crawl a new site has robots that permit the URL, or none. -/
inductive Robotized (g : Stage) : Bool → Stage → Prop
  | known (parts : SplitResult) (hparts : urlsplit a.codecs.toTables g.current.toList = some parts)
      (hknown : ¬(g.request.intent = "crawl" ∧ site parts ∉ g.robotsChecked)) : Robotized g false g
  | absent (parts : SplitResult) (response : Response) (hparts : urlsplit a.codecs.toTables g.current.toList = some parts)
      (hnew : g.request.intent = "crawl" ∧ site parts ∉ g.robotsChecked) (hroom : 0 < g.robotsBytes)
      (hreply : h.robots = .ok response) (hstatus : response.status ≠ 200) :
      Robotized g true {g with robotsChecked := site parts :: g.robotsChecked}
  | permits (parts : SplitResult) (response : Response) (body : List UInt8)
      (hparts : urlsplit a.codecs.toTables g.current.toList = some parts)
      (hnew : g.request.intent = "crawl" ∧ site parts ∉ g.robotsChecked) (hroom : 0 < g.robotsBytes)
      (hreply : h.robots = .ok response) (hstatus : response.status = 200)
      (hbody : body = response.chunks.flatMap (·.data)) (hlength : (body.length : Int) ≤ g.robotsBytes)
      (hended : response.failure = none)
      (hpermits : a.canFetch (site parts ++ "/robots.txt") body a.userAgent g.current = some true) :
      Robotized g true {g with
        robotsChecked := site parts :: g.robotsChecked, auxiliaryBytes := g.auxiliaryBytes + body.length}

theorem readRobots_reaches (consumedBefore : Nat) (maximumBytes : Int) (chunks : List Chunk) (body : List UInt8)
    (s : Exchange) (hlength : ((body ++ chunks.flatMap (·.data)).length : Int) ≤ maximumBytes) :
    Reaches (readRobots consumedBefore maximumBytes chunks body) s (· = body ++ chunks.flatMap (·.data)) s.stage := by
  unfold Reaches
  induction chunks generalizing body s with
  | nil => exact ⟨(List.append_nil _).symm, rfl⟩
  | cons chunk rest ih =>
    rw [List.flatMap_cons, ← List.append_assoc] at hlength ⊢
    have hprefix : ((body ++ chunk.data).length : Int) ≤ maximumBytes := by
      rw [List.length_append] at hlength
      omega
    simp only [readRobots, meets_bind, meets_modify, meets_check_true, decide_eq_true hprefix]
    exact ih _ _ hlength

theorem judgeRobots_reaches {robotsUrl target destination : String} {body : List UInt8} (s : Exchange)
    (hpermits : a.canFetch robotsUrl body a.userAgent target = some true)
    (hshown : a.policy.sanitizeUrl target = some destination) :
    (judgeRobots a robotsUrl target body).Meets s (fun _ t => t.stage = s.stage) fun _ _ => False := by
  simp only [judgeRobots, sanitized, meets_bind, meets_ofOption_some, hpermits, hshown]
  have hrecords := (Staged.recordOutcome "robots_policy_check" .applied "security" [("allowed", .flag true)]).bind
    fun _ => Staged.recordDecision {
      policyId := "robots_policy_check", allowed := true, reason := "robots.txt permits retrieval"
      destination := some destination}
  exact (meets_bind _ _).mp (hrecords s)

/-- What a `robots.txt` request leaves of the stage. -/
theorem enforceRobots_reaches {s : Exchange} {response : Response} {origin destination : String} {maximumBytes : Int}
    {bytes : Nat} (hroom : 0 < maximumBytes) (hreply : h.robots = .ok response)
    (hshown : a.policy.sanitizeUrl s.current = some destination)
    (hanswer : response.status ≠ 200 ∧ bytes = 0 ∨ response.status = 200 ∧
      bytes = (response.chunks.flatMap (·.data)).length ∧ (bytes : Int) ≤ maximumBytes ∧ response.failure = none ∧
      a.canFetch (origin ++ "/robots.txt") (response.chunks.flatMap (·.data)) a.userAgent s.current = some true) :
    Reaches (enforceRobots a h origin maximumBytes) s (· = bytes) s.stage := by
  unfold Reaches
  simp only [enforceRobots, meets_bind, meets_check_true, meets_modify, meets_get, decide_eq_true hroom, hreply]
  rw [weighRobots, meets_ite]
  obtain ⟨hstatus, rfl⟩ | ⟨hstatus, rfl, hlength, hended, hpermits⟩ := hanswer
  · refine ⟨fun _ => ?_, fun hno => absurd hstatus hno⟩
    have hrecords := (Staged.recordDecision {
        policyId := "robots_policy_check", allowed := true
        reason := "robots.txt returned HTTP " ++ toString response.status ++ "; policy allowed retrieval"
        destination := some destination}).bind fun _ => Staged.recordOutcome "robots_policy_check" .applied "security"
          [("status_code", .int response.status), ("allowed", .flag true)]
    simp only [sanitized, meets_bind, meets_ofOption_some, hshown]
    have hmeets := (meets_bind _ _).mp (hrecords {s with
      robotsSent := s.robotsSent ++ [{url := origin ++ "/robots.txt", headers := s.client, jar := []}]
      jar := [] ++ response.jar})
    exact hmeets.mono (fun _ t ht => ht.mono (fun _ u hu => ⟨rfl, hu⟩) fun _ _ h => h) fun _ _ h => h
  · refine ⟨fun hno => absurd hstatus hno, fun _ => ?_⟩
    simp only [meets_bind, meets_get]
    refine (readRobots_reaches _ maximumBytes response.chunks [] _ hlength).mono ?_ fun _ _ h => h
    rintro _ t ⟨rfl, ht⟩
    rw [hended]
    simp only [List.nil_append, meets_bind, meets_pure]
    exact (judgeRobots_reaches a t hpermits hshown).mono (fun _ u hu => ⟨trivial, hu.trans ht⟩) fun _ _ h => h

theorem checkRobots_reaches {s : Exchange} {fetched : Bool} {g : Stage} {destination : String}
    (hrobots : Robotized a h s.stage fetched g) (hshown : a.policy.sanitizeUrl s.current = some destination) :
    Reaches (checkRobots a h) s (· = fetched) g := by
  unfold Reaches
  simp only [checkRobots, splitUrl, meets_bind, meets_get]
  cases hrobots with
  | known parts hparts hknown =>
    have hparts' : urlsplit a.codecs.toTables s.current.toList = some parts := hparts
    simp only [hparts', meets_ofOption_some, meets_ite, meets_pure]
    exact ⟨fun hnew => absurd hnew hknown, fun _ => ⟨trivial, trivial⟩⟩
  | absent parts response hparts hnew hroom hreply hstatus =>
    have hparts' : urlsplit a.codecs.toTables s.current.toList = some parts := hparts
    simp only [hparts', meets_ofOption_some, meets_ite, meets_bind, meets_modify, meets_pure]
    refine ⟨fun _ => ?_, fun hno => absurd hnew hno⟩
    refine (enforceRobots_reaches (s := {s with robotsChecked := site parts :: s.robotsChecked, jar := []}) a h hroom hreply
      hshown (.inl ⟨hstatus, rfl⟩)).mono ?_ fun _ _ h => h
    rintro _ t ⟨rfl, ht⟩
    exact ⟨trivial, congrArg (fun g : Stage => {g with auxiliaryBytes := g.auxiliaryBytes + 0}) ht⟩
  | permits parts response body hparts hnew hroom hreply hstatus hbody hlength hended hpermits =>
    have hparts' : urlsplit a.codecs.toTables s.current.toList = some parts := hparts
    simp only [hparts', meets_ofOption_some, meets_ite, meets_bind, meets_modify, meets_pure]
    refine ⟨fun _ => ?_, fun hno => absurd hnew hno⟩
    subst hbody
    refine (enforceRobots_reaches (s := {s with robotsChecked := site parts :: s.robotsChecked, jar := []}) a h hroom hreply
      hshown (.inr ⟨hstatus, rfl, hlength, hended, hpermits⟩)).mono ?_ fun _ _ h => h
    rintro _ t ⟨rfl, ht⟩
    exact ⟨trivial, congrArg (fun g : Stage =>
      {g with auxiliaryBytes := g.auxiliaryBytes + (response.chunks.flatMap Chunk.data).length}) ht⟩

/-! ### The request -/

/-- The credential applies to the URL or it does not, but the URL has an origin to tell. -/
inductive InScope (g : Stage) : Bool → Prop
  | without (hnone : g.credential = none) : InScope g false
  | within (m : CredentialMaterial) (applies : Bool) (hsome : g.credential = some m)
      (happlies : m.appliesTo a.codecs g.current = some applies) : InScope g applies

theorem recordCredentialUse_staged (m : CredentialMaterial) : Staged (recordCredentialUse m) := by
  intro s
  rw [recordCredentialUse, meets_bind, meets_get, meets_when]
  refine ⟨fun _ => ?_, fun _ => rfl⟩
  have hrecords := ((Staged.recordOutcome m.capabilityId .applied "auth" [("exact_origin", .flag true)]).bind fun _ =>
    Staged.recordOutcome "connector_auth" .applied "auth" [("exact_origin", .flag true)]) s
  simp only [meets_bind, meets_modify] at hrecords ⊢
  exact hrecords

theorem applyCredential_reaches {s : Exchange} {applies : Bool} {destination : String} (hscoped : InScope a s.stage applies)
    (hshown : a.policy.sanitizeUrl s.current = some destination) :
    Reaches (applyCredential a) s (fun r => r.2 = applies) s.stage := by
  unfold Reaches
  rw [applyCredential, meets_bind, meets_get]
  cases hscoped with
  | without hnone =>
    have hnone' : s.credential = none := hnone
    rw [hnone']
    exact ⟨rfl, rfl⟩
  | within m _ hsome happlies =>
    have hsome' : s.credential = some m := hsome
    have happlies' : m.appliesTo a.codecs s.current = some applies := happlies
    rw [hsome']
    simp only [sanitized, meets_bind, meets_ofOption_some, happlies', hshown]
    cases applies with
    | true =>
      have hrecords := ((Staged.recordDecision {
        policyId := "credential_origin_scope", allowed := true
        reason := "credential material matched the exact request origin", destination := some destination}).bind
          fun _ => recordCredentialUse_staged m) s
      simp only [meets_bind, meets_pure, if_true] at hrecords ⊢
      exact hrecords.mono (fun _ t ht => ht.mono (fun _ u hu => ⟨trivial, hu⟩) fun _ _ h => h) fun _ _ h => h
    | false =>
      have hrecords := ((Staged.recordDecision {
        policyId := "credential_origin_scope", allowed := true
        reason := "credential material was withheld from a different redirect origin"
        destination := some destination}).bind fun _ => Staged.recordOutcome "connector_auth" .notApplicable "auth"
          [("reason", .text "redirect origin did not match credential scope")]) s
      simp only [meets_bind, meets_pure, Bool.false_eq_true, if_false] at hrecords ⊢
      exact hrecords.mono (fun _ t ht => ht.mono (fun _ u hu => ⟨trivial, hu⟩) fun _ _ h => h) fun _ _ h => h

/-- The login cookies of the origin can be sent. -/
def CookiesRendered (g : Stage) : Prop :=
  call.allowEphemeralLoginCookies = true → ∃ origin, canonicalOrigin a.codecs g.current = some origin ∧
    (g.cookieOrigin = some origin → (renderEphemeralCookieHeader a.codecs g.cookies g.current).isOk = true)

theorem applyCookies_reaches {s : Exchange} {headers : Dict String String} (hrendered : CookiesRendered a call s.stage) :
    (applyCookies a call headers).Meets s (fun _ t => t.stage = s.stage) fun _ _ => False := by
  rw [applyCookies, meets_bind, meets_get, meets_ite]
  refine ⟨fun hlogin => ?_, fun _ => rfl⟩
  obtain ⟨origin, horigin, hok⟩ := hrendered hlogin
  have horigin' : canonicalOrigin a.codecs s.current = some origin := horigin
  rw [meets_bind, horigin', meets_ofOption_some, meets_ite]
  refine ⟨fun hsame => ?_, fun _ => rfl⟩
  have hok' : (renderEphemeralCookieHeader a.codecs s.ephemeralCookies s.current).isOk = true := hok hsame
  rw [meets_bind]
  cases hresult : renderEphemeralCookieHeader a.codecs s.ephemeralCookies s.current with
  | error err =>
    rw [hresult] at hok'
    cases hok'
  | ok rendered =>
    obtain ⟨cookies, header⟩ := rendered
    rw [Except.mapError, meets_ofExcept_ok]
    cases header <;> exact rfl

/-- After a `robots.txt` there is a slot for the page, in time. -/
def PublisherSlotted (g : Stage) (fetched : Bool) : Prop :=
  fetched = true → h.publisherElapsed < g.request.budget.deadlineSeconds ∧ h.publisherSlot = .ok ()

theorem sendRequest_reaches {s : Exchange} {fetched : Bool} {headers : Dict String String} {cookies : List EphemeralCookie}
    {response : Response} (hslot : PublisherSlotted h s.stage fetched) (hreply : h.reply = .ok response) :
    Reaches (sendRequest h fetched headers cookies) s (· = response) s.stage := by
  unfold Reaches
  cases fetched with
  | false =>
    simp only [sendRequest, meets_bind, meets_modify, meets_ofExcept_ok, meets_pure, hreply]
    exact ⟨trivial, rfl⟩
  | true =>
    obtain ⟨helapsed, hpublisher⟩ := hslot rfl
    have hin : h.publisherElapsed < s.context.request.budget.deadlineSeconds := helapsed
    simp only [sendRequest, takePublisherSlot, withinDeadline, when, meets_bind, meets_modify, meets_get, meets_check_true,
      meets_ofExcept_ok, meets_pure, hreply, hpublisher, decide_eq_true hin, if_true]
    exact ⟨trivial, rfl⟩

/-! ### The answer -/

/-- Method and body after a redirect. -/
def Stage.switched (g : Stage) (status : Nat) : Stage :=
  if status = 303 ∨ ((status = 301 ∨ status = 302) ∧ g.method = "POST") then
    {g with method := "GET", requestBody := none}
  else g

/-- The login cookies that go along. -/
inductive HandsOn (response : Response) (redirected : String) (g : Stage) : Stage → Prop
  | off (hoff : call.allowEphemeralLoginCookies = false) : HandsOn response redirected g g
  | kept (captured : CookieMap) (hlogin : call.allowEphemeralLoginCookies = true)
      (hsame : sameExactOrigin a.codecs g.current redirected = true)
      (hcaptured : captureEphemeralLoginCookies a.codecs h.capturedAt response.toResponseCookies g.current g.cookies =
        .ok captured) : HandsOn response redirected g {g with
          cookies := captured
          cookieOrigin := if captured.size = 0 then none else canonicalOrigin a.codecs g.current}
  | dropped (hlogin : call.allowEphemeralLoginCookies = true)
      (hother : sameExactOrigin a.codecs g.current redirected = false) :
      HandsOn response redirected g {g with cookies := ∅, cookieOrigin := none}

/-- A redirect that points somewhere and has no body to replay. -/
inductive Moves (response : Response) (g : Stage) : Stage → Prop
  | intro (location : String) (joined : List Char) (g' : Stage)
      (hstatus : 300 ≤ response.status ∧ response.status ≤ 399)
      (hlocation : response.location = some location) (hpoints : location.isEmpty = false)
      (hjoined : urljoin a.codecs.toTables g.current.toList location.toList = some joined)
      (hlogin : call.allowEphemeralLoginCookies = true → ¬(response.status = 307 ∨ response.status = 308))
      (hbody : (g.switched response.status).requestBody = none)
      (hhands : HandsOn a call h response (String.ofList joined) (g.switched response.status) g') :
      Moves response g {g' with previous := some g.current, current := String.ofList joined}

theorem switchMethod_reaches {s : Exchange} {status : Nat} {redirected : String}
    (hbody : (s.stage.switched status).requestBody = none) :
    (switchMethod a status redirected).Meets s (fun _ t => t.stage = s.stage.switched status) fun _ _ => False := by
  rw [switchMethod, meets_bind, meets_get]
  unfold Stage.switched at hbody ⊢
  by_cases hswitch : status = 303 ∨ ((status = 301 ∨ status = 302) ∧ s.method = "POST")
  · have hswitch' : status = 303 ∨ ((status = 301 ∨ status = 302) ∧ s.stage.method = "POST") := hswitch
    rw [if_pos hswitch, if_pos hswitch']
    rfl
  · have hswitch' : ¬(status = 303 ∨ ((status = 301 ∨ status = 302) ∧ s.stage.method = "POST")) := hswitch
    rw [if_neg hswitch'] at hbody
    have hnone : s.requestBody = none := hbody
    rw [if_neg hswitch, if_neg hswitch', hnone]
    rfl

theorem handCookies_reaches {s : Exchange} {response : Response} {redirected : String} {g : Stage}
    (hhands : HandsOn a call h response redirected s.stage g) :
    (when call.allowEphemeralLoginCookies (handCookies a h response redirected)).Meets s (fun _ t => t.stage = g)
      fun _ _ => False := by
  rw [meets_when]
  cases hhands with
  | off hoff => exact ⟨fun hon => absurd hon (by rw [hoff]; exact Bool.false_ne_true), fun _ => rfl⟩
  | kept captured hlogin hsame hcaptured =>
    refine ⟨fun _ => ?_, fun hno => absurd hlogin hno⟩
    have hsame' : sameExactOrigin a.codecs s.current redirected = true := hsame
    have hcaptured' : captureEphemeralLoginCookies a.codecs h.capturedAt response.toResponseCookies s.current
      s.ephemeralCookies = .ok captured := hcaptured
    rw [handCookies, meets_bind, meets_get, if_pos hsame', meets_bind, hcaptured', Except.mapError, meets_ofExcept_ok]
    rfl
  | dropped hlogin hother =>
    refine ⟨fun _ => ?_, fun hno => absurd hlogin hno⟩
    have hother' : ¬ sameExactOrigin a.codecs s.current redirected = true := by
      rw [show sameExactOrigin a.codecs s.current redirected = false from hother]
      exact Bool.false_ne_true
    rw [handCookies, meets_bind, meets_get, if_neg hother']
    rfl

theorem HandsOn.current {response : Response} {redirected : String} {g g' : Stage}
    (hhands : HandsOn a call h response redirected g g') : g'.current = g.current := by
  cases hhands <;> rfl

theorem Stage.switched_current (g : Stage) (status : Nat) : (g.switched status).current = g.current := by
  unfold switched
  split <;> rfl

theorem redirectTo_reaches {s : Exchange} {response : Response} {redirected : String} {g : Stage}
    (hlogin : call.allowEphemeralLoginCookies = true → ¬(response.status = 307 ∨ response.status = 308))
    (hbody : (s.stage.switched response.status).requestBody = none)
    (hhands : HandsOn a call h response redirected (s.stage.switched response.status) g) :
    (redirectTo a call h response redirected).Meets s
      (fun _ t => t.stage = {g with previous := some s.current, current := redirected}) fun _ _ => False := by
  have hcurrent : g.current = s.current := (hhands.current).trans (Stage.switched_current _ _)
  rw [redirectTo, meets_bind, meets_when]
  refine ⟨fun hrefused => absurd hrefused.2 (hlogin hrefused.1), fun _ => ?_⟩
  rw [meets_bind]
  refine (switchMethod_reaches a hbody).mono (fun _ t ht => ?_) fun _ _ h => h
  rw [← ht] at hhands
  rw [meets_bind]
  refine (handCookies_reaches a call h hhands).mono (fun _ u hu => ?_) fun _ _ h => h
  have hprevious : u.current = s.current := (congrArg Stage.current hu).trans hcurrent
  rw [meets_modify, ← hprevious]
  exact congrArg (fun g : Stage => {g with previous := some u.current, current := redirected}) hu

theorem followRedirect_reaches {s : Exchange} {response : Response} {g : Stage}
    (hmoves : Moves a call h response s.stage g) :
    (followRedirect a call h response).Meets s (fun _ t => t.stage = g) fun _ _ => False := by
  cases hmoves with
  | intro location joined g' _ hlocation hpoints hjoined hlogin hbody hhands =>
    have hfilter : response.location.filter (!·.isEmpty) = some location := by
      rw [hlocation, Option.filter_some, hpoints]
      rfl
    have hjoined' : urljoin a.codecs.toTables s.current.toList location.toList = some joined := hjoined
    simp only [followRedirect, meets_bind, meets_modify, meets_get, meets_ofOption_some, hfilter, hjoined']
    exact redirectTo_reaches a call h hlogin hbody hhands

/-- A token that the server calls expired and the provider refreshes. -/
inductive Retries (response : Response) (applies : Bool) (g : Stage) : Stage → Prop
  | intro (existing m : CredentialMaterial) (hheld : g.credential = some existing) (hstatus : response.status = 401)
      (happlies : applies = true) (hbearer : existing.capabilityId = "bearer_token")
      (hexpired : response.reportsExpiredCredential = true) (hreference : g.request.authenticationRef.isSome = true)
      (hrefreshed : Refreshed a h g existing m) :
      Retries response applies g {g.adopt m with visited := g.visited.filter (· ≠ g.current)}

theorem retryExpired_reaches {s : Exchange} {existing m : CredentialMaterial}
    (hreference : s.stage.request.authenticationRef.isSome = true) (hrefreshed : Refreshed a h s.stage existing m) :
    (retryExpired a h existing).Meets s
      (fun _ t => t.stage = {s.stage.adopt m with visited := s.visited.filter (· ≠ s.current)}) fun _ _ => False := by
  have hfirst : s.refreshAttempted = false := hrefreshed.first
  have hsafe : isSafeMethod s.method = true := hrefreshed.safe
  have hreference' : s.context.request.authenticationRef.isSome = true := hreference
  have hrefresh := refreshCredential_reaches a h hrefreshed
  rw [hfirst] at hrefresh
  simp only [retryExpired, meets_bind, meets_get, meets_check_true, hfirst, hsafe, hreference', Bool.not_false, Bool.and_self]
  refine hrefresh.mono ?_ fun _ _ h => h
  rintro _ t ⟨rfl, ht⟩
  have hcurrent : t.current = s.current := congrArg Stage.current ht
  have hvisited : t.visited = s.visited := congrArg Stage.visited ht
  rw [adoptCredential, meets_modify, meets_modify, ← hcurrent, ← hvisited]
  exact congrArg (fun g : Stage => {g.adopt _ with visited := t.visited.filter (· ≠ t.current)}) ht

/-- The body of a page and what it came from. -/
structure Page where
  url : String
  response : Response
  body : List UInt8

def HttpResult.page (result : HttpResult) : Page where
  url := result.url
  response := result.response
  body := result.body

/-- A success within the byte budgets, with what the call read besides. -/
inductive Lands (response : Response) (g : Stage) : Page → Prop
  | intro (announced : Option Nat) (hstatus : 200 ≤ response.status ∧ response.status ≤ 299)
      (hannounced : contentLength response = .ok announced)
      (hlength : ∀ n ∈ announced, ((n + g.auxiliaryBytes : Nat) : Int) ≤ g.maximumWireBytes)
      (hwire : ∀ chunk ∈ response.chunks,
        ((max chunk.downloaded (announced.getD 0) + g.auxiliaryBytes : Nat) : Int) ≤ g.maximumWireBytes)
      (hdecompressed : (((response.chunks.flatMap (·.data)).length + g.auxiliaryBytes : Nat) : Int) ≤
        g.maximumDecompressedBytes)
      (hended : response.failure = none) : Lands response g {
        url := g.current
        response := if call.allowEphemeralLoginCookies then scrubCookieState response else response
        body := response.chunks.flatMap (·.data)}

theorem readBody_reaches (announced : Nat) (chunks : List Chunk) (body : List UInt8) (s : Exchange)
    (hwire : ∀ chunk ∈ chunks, ((max chunk.downloaded announced + s.auxiliaryBytes : Nat) : Int) ≤ s.maximumWireBytes)
    (hdecompressed : (((body ++ chunks.flatMap (·.data)).length + s.auxiliaryBytes : Nat) : Int) ≤
      s.maximumDecompressedBytes) :
    Reaches (readBody announced chunks body) s (· = body ++ chunks.flatMap (·.data)) s.stage := by
  unfold Reaches
  induction chunks generalizing body s with
  | nil => exact ⟨(List.append_nil _).symm, rfl⟩
  | cons chunk rest ih =>
    obtain ⟨hchunk, hrest⟩ := List.forall_mem_cons.mp hwire
    rw [List.flatMap_cons, ← List.append_assoc] at hdecompressed ⊢
    have hprefix : (((body ++ chunk.data).length + s.auxiliaryBytes : Nat) : Int) ≤ s.maximumDecompressedBytes := by
      rw [List.length_append] at hdecompressed
      omega
    simp only [readBody, meets_bind, meets_modify, meets_get, meets_check]
    refine ⟨fun _ => ⟨fun _ => ?_, fun hover => ?_⟩, fun hover => ?_⟩
    · exact ih (body ++ chunk.data) _ hrest hdecompressed
    · exact absurd hprefix (of_decide_eq_false hover)
    · exact absurd hchunk (of_decide_eq_false hover)

theorem finish_reaches {s : Exchange} {response : Response} {page : Page} (hlands : Lands call response s.stage page) :
    (finish call response).Meets s (fun result _ => result.page = page) fun _ _ => False := by
  cases hlands with
  | intro announced _ hannounced hlength hwire hdecompressed hended =>
    have hlength' : (announced.all fun n => ((n + s.auxiliaryBytes : Nat) : Int) ≤ s.maximumWireBytes) = true := by
      cases announced with
      | none => rfl
      | some n => exact decide_eq_true (hlength n rfl)
    simp only [finish, meets_bind, meets_ofExcept_ok, meets_get, meets_check_true, meets_modify, meets_when, meets_pure,
      hannounced, hended, hlength']
    refine (readBody_reaches _ response.chunks [] s hwire hdecompressed).mono ?_ fun _ _ h => h
    rintro _ t ⟨rfl, ht⟩
    have hcurrent : t.current = s.current := congrArg Stage.current ht
    refine ⟨fun _ => ?_, fun _ => ?_⟩
    · rw [HttpResult.page, Page.mk.injEq]
      exact ⟨hcurrent, rfl, rfl⟩
    · rw [HttpResult.page, Page.mk.injEq]
      exact ⟨hcurrent, rfl, rfl⟩

/-! ### One turn -/

/-- A turn sends its request and is answered. -/
inductive Answers (g : Stage) : Bool → Response → Stage → Prop
  | intro (g₁ g₂ : Stage) (fetched applies : Bool) (response : Response) (harrives : Arrives a call h g g₁)
      (hrobots : Robotized a h g₁ fetched g₂) (hscoped : InScope a g₂ applies) (hrendered : CookiesRendered a call g₂)
      (hslot : PublisherSlotted h g₂ fetched) (hreply : h.reply = .ok response) : Answers g applies response g₂

/-- A URL that is let in can be shown. -/
theorem Allowed.shown {g g' : Stage} (hallowed : Allowed a h g g') :
    ∃ destination, a.policy.sanitizeUrl g'.current = some destination := by
  cases hallowed with
  | intro url decisions validated parts heval =>
    simp only [SafeUrlPolicy.evaluate, Except.bind_eq_ok, Except.require_eq_ok, Except.ofOption_eq_ok] at heval
    obtain ⟨_, -, _, -, _, -, _, -, -, -, -, -, destination, hshown, hreturn⟩ := heval
    cases hreturn
    exact ⟨destination, hshown⟩

theorem Withheld.current {g g' : Stage} (hwithheld : Withheld a g g') : g'.current = g.current := by
  cases hwithheld <;> rfl

theorem Arrives.shown {g g' : Stage} (harrives : Arrives a call h g g') :
    ∃ destination, a.policy.sanitizeUrl g'.current = some destination := by
  cases harrives with
  | intro g₁ g₂ _ _ hallowed hcredential _ hwithheld =>
    have hcurrent : g'.current = g₁.current := hwithheld.current.trans hcredential.kept.1
    rw [hcurrent]
    exact hallowed.shown

theorem Robotized.current {g g' : Stage} {fetched : Bool} (hrobots : Robotized a h g fetched g') :
    g'.current = g.current := by
  cases hrobots <;> rfl

theorem recordRateLimit_reaches {s : Exchange} {destination : String}
    (hshown : a.policy.sanitizeUrl s.current = some destination) :
    (recordRateLimit a).Meets s (fun _ t => t.stage = s.stage) fun _ _ => False := by
  have hrecords := (Staged.recordDecision {
      policyId := "rate_limit_policy", allowed := true
      reason := "per-host request interval and concurrency policy applied", destination := some destination}).bind
    fun _ => Staged.recordOutcome "rate_limit_policy" .applied "security"
      [("minimum_interval_seconds", .float a.minimumIntervalSeconds), ("concurrency", .int a.perHostConcurrency)]
  simp only [recordRateLimit, sanitized, meets_bind, meets_get, meets_ofOption_some, hshown]
  exact (meets_bind _ _).mp (hrecords s)

/-- A turn does what its answer leads to. -/
theorem hop_reaches {s : Exchange} {g : Stage} {applies : Bool} {response : Response}
    (hanswers : Answers a call h s.stage applies response g) {Q : Option HttpResult → Exchange → Prop}
    (hhandled : ∀ t : Exchange, t.stage = g → (handleResponse a call h applies response).Meets t Q fun _ _ => False) :
    (hop a call h).Meets s Q fun _ _ => False := by
  cases hanswers with
  | intro g₁ _ fetched _ _ harrives hrobots hscoped hrendered hslot hreply =>
    obtain ⟨destination, hshown⟩ := harrives.shown
    rw [hop, meets_bind]
    refine (arrive_reaches a call h harrives).mono (fun _ t ht => ?_) fun _ _ h => h
    rw [← ht] at hrobots hshown
    rw [exchangeCurrent, meets_bind]
    refine (checkRobots_reaches a h hrobots hshown).mono ?_ fun _ _ h => h
    rintro _ u ⟨rfl, hu⟩
    rw [← hrobots.current, ← hu] at hshown
    rw [← hu] at hscoped hrendered hslot
    rw [meets_bind]
    refine (recordRateLimit_reaches a hshown).mono (fun _ w hw => ?_) fun _ _ h => h
    rw [meets_bind]
    rw [← hw] at hscoped hrendered hslot hu
    have hshown' : a.policy.sanitizeUrl w.current = some destination :=
      (congrArg (fun g : Stage => a.policy.sanitizeUrl g.current) hw).trans hshown
    refine (applyCredential_reaches a hscoped hshown').mono ?_ fun _ _ h => h
    rintro ⟨headers, _⟩ x ⟨rfl, hx⟩
    rw [← hx] at hrendered hslot hu
    dsimp only
    rw [meets_bind]
    refine (applyCookies_reaches a call hrendered).mono ?_ fun _ _ h => h
    rintro ⟨headers', cookies⟩ y hy
    dsimp only
    rw [meets_bind]
    rw [← hy] at hslot hu
    refine (sendRequest_reaches h hslot hreply).mono ?_ fun _ _ h => h
    rintro _ z ⟨rfl, hz⟩
    exact hhandled z (hz.trans hu)

theorem hop_moved {s : Exchange} {g g' : Stage} {applies : Bool} {response : Response}
    (hanswers : Answers a call h s.stage applies response g) (hmoves : Moves a call h response g g') :
    Reaches (hop a call h) s (· = none) g' := by
  refine hop_reaches a call h hanswers fun t ht => ?_
  subst ht
  have hstatus : 300 ≤ response.status ∧ response.status ≤ 399 := by
    cases hmoves
    assumption
  rw [handleResponse, meets_bind, meets_get, if_pos hstatus, meets_bind]
  exact (followRedirect_reaches a call h hmoves).mono (fun _ u hu => ⟨rfl, hu⟩) fun _ _ h => h

theorem hop_retried {s : Exchange} {g g' : Stage} {applies : Bool} {response : Response}
    (hanswers : Answers a call h s.stage applies response g) (hretries : Retries a h response applies g g') :
    Reaches (hop a call h) s (· = none) g' := by
  refine hop_reaches a call h hanswers fun t ht => ?_
  subst ht
  cases hretries with
  | intro existing m hheld hstatus happlies hbearer hexpired hreference hrefreshed =>
    have hheld' : t.credential = some existing := hheld
    have hfound : expiredCredential t applies response = some existing := by
      simp [expiredCredential, hheld', hstatus, happlies, hbearer, hexpired]
    rw [handleResponse, meets_bind, meets_get, if_neg (by omega), if_neg (by omega), hfound, meets_bind]
    exact (retryExpired_reaches a h hreference hrefreshed).mono (fun _ u hu => ⟨rfl, hu⟩) fun _ _ h => h

theorem hop_landed {s : Exchange} {g : Stage} {applies : Bool} {response : Response} {page : Page}
    (hanswers : Answers a call h s.stage applies response g) (hlands : Lands call response g page) :
    (hop a call h).Meets s (fun r _ => ∃ result, r = some result ∧ result.page = page) fun _ _ => False := by
  refine hop_reaches a call h hanswers fun t ht => ?_
  subst ht
  have hstatus : 200 ≤ response.status ∧ response.status ≤ 299 := by
    cases hlands
    assumption
  have hnone : expiredCredential t applies response = none := by
    rw [expiredCredential, Option.filter_eq_none_iff]
    intro m _
    have hother : response.status ≠ 401 := by omega
    simp [hother]
  rw [handleResponse, meets_bind, meets_get, if_neg (by omega), if_neg (by omega), hnone]
  dsimp only
  rw [if_neg (by omega), if_neg (not_not.mpr hstatus), meets_bind]
  exact (finish_reaches call hlands).mono (fun result _ hr => ⟨result, rfl, hr⟩) fun _ _ h => h

end Fetech.Http
