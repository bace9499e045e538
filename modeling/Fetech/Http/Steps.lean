import Fetech.Http

/-! What each step of a hop does, said once.

`Exchange.core` is the part of the state that requests are made of. Most steps only
record or count and keep it (`Keeps`); every other step has a rule that says what it
becomes. Whatever is shown about chains of hops is shown from these rules. -/
namespace Fetech.Http
open Lib Lib.Url Lib.Program

/-- The part of an exchange that decides what is sent, with the attempts it leaves alone. -/
structure Core where
  request : FetchRequest
  attempts : List FetchAttempt
  secrets : Dict String Secret
  method : String
  headers : Dict String String
  client : List (String × String)
  requestBody : Option (List UInt8)
  current : String
  previous : Option String
  visited : List String
  redirectStatuses : List Nat
  credential : Option CredentialMaterial
  refreshAttempted : Bool
  cookies : CookieMap
  cookieOrigin : Option String
  sent : List Sent
  refreshes : List Refresh

def Exchange.core (s : Exchange) : Core where
  request := s.context.request
  attempts := s.context.attempts
  secrets := s.context.sensitiveState
  method := s.method
  headers := s.headers
  client := s.client
  requestBody := s.requestBody
  current := s.current
  previous := s.previous
  visited := s.visited
  redirectStatuses := s.redirectStatuses
  credential := s.credential
  refreshAttempted := s.refreshAttempted
  cookies := s.ephemeralCookies
  cookieOrigin := s.ephemeralCookieOrigin
  sent := s.sent
  refreshes := s.refreshes

/-- A step that changes neither what is sent nor what was sent for robots. -/
def Keeps {α : Type} (x : HttpM α) : Prop :=
  ∀ s, x.Meets s (fun _ s' => s'.core = s.core ∧ s'.robotsSent = s.robotsSent)
    fun _ s' => s'.core = s.core ∧ s'.robotsSent = s.robotsSent

namespace Keeps
variable {α β : Type}

theorem pure (a : α) : Keeps (pure a) := fun _ => ⟨rfl, rfl⟩

theorem raise (err : HttpError) : Keeps (raise err : HttpM α) := fun _ => ⟨rfl, rfl⟩

theorem ofExcept (x : Except HttpError α) : Keeps (ofExcept x) := by
  intro s
  simp

theorem ofOption (err : HttpError) (o : Option α) : Keeps (ofOption err o) := ofExcept _

theorem check (ok : Bool) (err : HttpError) : Keeps (check ok err) := ofExcept _

theorem get : Keeps get := fun _ => ⟨rfl, rfl⟩

theorem bind {x : HttpM α} {f : α → HttpM β} (hx : Keeps x) (hf : ∀ a, Keeps (f a)) : Keeps (x >>= f) := by
  intro s
  rw [meets_bind]
  refine (hx s).mono ?_ fun _ _ h => h
  intro a s' hs'
  refine (hf a s').mono ?_ ?_
  · intro b t ht
    exact ⟨ht.1.trans hs'.1, ht.2.trans hs'.2⟩
  · intro err t ht
    exact ⟨ht.1.trans hs'.1, ht.2.trans hs'.2⟩

theorem ite (p : Prop) [Decidable p] {x y : HttpM α} (hx : Keeps x) (hy : Keeps y) : Keeps (if p then x else y) := by
  split
  · exact hx
  · exact hy

theorem when (p : Prop) [Decidable p] {x : HttpM Unit} (hx : Keeps x) : Keeps (when p x) := ite p hx (pure ())

/-- A change outside the core. -/
theorem modify {f : Exchange → Exchange} (hcore : ∀ s, (f s).core = s.core)
    (hrobots : ∀ s, (f s).robotsSent = s.robotsSent) : Keeps (modify f) := fun s => ⟨hcore s, hrobots s⟩

/-- Records go to the context; request, attempts and secrets stay. -/
theorem record {f : ExecutionContext → ExecutionContext} (hrequest : ∀ ctx, (f ctx).request = ctx.request)
    (hattempts : ∀ ctx, (f ctx).attempts = ctx.attempts)
    (hsecrets : ∀ ctx, (f ctx).sensitiveState = ctx.sensitiveState) : Keeps (record f) := by
  refine modify (fun s => ?_) fun s => rfl
  simp [Exchange.core, hrequest, hattempts, hsecrets]

theorem recordDecision (d : PolicyDecision) : Keeps (recordDecision d) :=
  record (fun _ => rfl) (fun _ => rfl) fun _ => rfl

theorem recordOutcome (capabilityId : String) (status : OutcomeStatus) (stage : String)
    (details : List (String × Detail)) : Keeps (recordOutcome capabilityId status stage details) :=
  record (fun _ => rfl) (fun _ => rfl) fun _ => rfl

theorem recordRuntimeEvent (eventType actor : String) (payload : List (String × Detail)) :
    Keeps (recordRuntimeEvent eventType actor payload) := record (fun _ => rfl) (fun _ => rfl) fun _ => rfl

theorem sanitized (a : HttpAdapter) (url : String) : Keeps (sanitized a url) := ofOption _ _

theorem withinDeadline (elapsed : ℚ) : Keeps (withinDeadline elapsed) := bind get fun _ => check _ _

/-- The rule of a step, turned into one about whatever follows. -/
theorem meets {x : HttpM α} (hx : Keeps x) {s : Exchange} {Q : α → Exchange → Prop} {E : HttpError → Exchange → Prop}
    (hQ : ∀ a s', s'.core = s.core → s'.robotsSent = s.robotsSent → Q a s')
    (hE : ∀ err s', s'.core = s.core → s'.robotsSent = s.robotsSent → E err s') : x.Meets s Q E :=
  (hx s).mono (fun a s' h => hQ a s' h.1 h.2) fun err s' h => hE err s' h.1 h.2

end Keeps

variable (a : HttpAdapter) (call : HttpCall) (h : Hop)

/-! ### Steps that keep the core -/

theorem takeSlot_keeps : Keeps (takeSlot a h) :=
  .bind .get fun _ => .bind (.ofExcept _) fun _ => .bind (.withinDeadline _) fun _ => .ofExcept _

theorem recordRateLimit_keeps : Keeps (recordRateLimit a) :=
  .bind .get fun _ => .bind (.sanitized a _) fun _ => .bind (.recordDecision _) fun _ => .recordOutcome _ _ _ _

theorem recordCredentialUse_keeps (m : CredentialMaterial) : Keeps (recordCredentialUse m) :=
  .bind .get fun _ => .when _ <|
    .bind (.recordOutcome _ _ _ _) fun _ => .bind (.recordOutcome _ _ _ _) fun _ =>
      .modify (fun _ => rfl) fun _ => rfl

/-- A step that keeps the core and always raises. -/
theorem Keeps.raises {α β : Type} {x : HttpM α} (hx : Keeps x) (err : α → HttpError) (s : Exchange) :
    (x >>= fun r => (Program.raise (err r) : HttpM β)).Meets s (fun _ _ => False)
      fun _ s' => s'.core = s.core ∧ s'.robotsSent = s.robotsSent := by
  simp only [meets_bind, meets_raise]
  exact hx s

theorem refuseCredential_meets (url : String) (s : Exchange) :
    (refuseCredential a url).Meets s (fun _ _ => False)
      fun _ s' => s'.core = s.core ∧ s'.robotsSent = s.robotsSent := by
  rw [refuseCredential, meets_bind]
  refine (Keeps.sanitized a url).meets ?_ fun _ _ hcore hrobots => ⟨hcore, hrobots⟩
  intro destination t hcore hrobots
  rw [← hcore, ← hrobots]
  exact (Keeps.recordOutcome _ _ _ _).raises _ t

theorem refuseReplay_meets (redirected : String) (s : Exchange) :
    (refuseReplay a redirected).Meets s (fun _ _ => False)
      fun _ s' => s'.core = s.core ∧ s'.robotsSent = s.robotsSent :=
  (Keeps.sanitized a redirected).raises _ s

theorem takePublisherSlot_meets (robotsFetched : Bool) (s : Exchange) :
    (takePublisherSlot h robotsFetched).Meets s (fun _ s' => s' = s) fun _ s' => s' = s := by
  simp [takePublisherSlot, withinDeadline]

theorem readRobots_keeps (consumedBefore : Nat) (maximumBytes : Int) (chunks : List Chunk) (body : List UInt8) :
    Keeps (readRobots consumedBefore maximumBytes chunks body) := by
  induction chunks generalizing body with
  | nil => exact .pure _
  | cons chunk rest ih =>
    exact .bind (.modify (fun _ => rfl) fun _ => rfl) fun _ => .bind (.check _ _) fun _ => ih _

theorem robotsFailed_keeps {α : Type} (err : HttpError) : Keeps (robotsFailed err : HttpM α) := by
  cases err with
  | transport typeName timeout => exact .bind (.recordOutcome _ _ _ _) fun _ => .raise _
  | _ => exact .raise _

theorem judgeRobots_keeps (robotsUrl target : String) (body : List UInt8) :
    Keeps (judgeRobots a robotsUrl target body) :=
  .bind (.ofOption _ _) fun _ => .bind (.sanitized a target) fun _ => .bind (.recordOutcome _ _ _ _) fun _ =>
    .ite _ (.recordDecision _) (.raise _)

theorem weighRobots_keeps (robotsUrl target : String) (maximumBytes : Int) (response : Response) :
    Keeps (weighRobots a robotsUrl target maximumBytes response) := by
  refine .ite _ ?_ ?_
  · exact .bind (.sanitized a target) fun _ => .bind (.recordDecision _) fun _ =>
      .bind (.recordOutcome _ _ _ _) fun _ => .pure _
  · refine .bind .get fun _ => .bind (readRobots_keeps _ _ _ _) fun body => ?_
    split
    · exact robotsFailed_keeps _
    · exact .bind (judgeRobots_keeps a _ _ _) fun _ => .pure _

theorem readBody_keeps (announced : Nat) (chunks : List Chunk) (body : List UInt8) :
    Keeps (readBody announced chunks body) := by
  induction chunks generalizing body with
  | nil => exact .pure _
  | cons chunk rest ih =>
    exact .bind (.modify (fun _ => rfl) fun _ => rfl) fun _ => .bind .get fun _ => .bind (.check _ _) fun _ =>
      .bind (.check _ _) fun _ => ih _

theorem finish_keeps (response : Response) : Keeps (finish call response) :=
  .bind (.ofExcept _) fun _ => .bind .get fun _ => .bind (.check _ _) fun _ =>
    .bind (readBody_keeps _ _ _) fun _ => .bind (.ofExcept _) fun _ =>
      .bind (.modify (fun _ => rfl) fun _ => rfl) fun _ =>
        .bind (.when _ (.modify (fun _ => rfl) fun _ => rfl)) fun _ => .bind .get fun _ => .pure _

/-! ### The URL of the hop -/

theorem recordDecisions_request (decisions : List PolicyDecision) (ctx : ExecutionContext) :
    (recordDecisions decisions ctx).request = ctx.request ∧ (recordDecisions decisions ctx).attempts = ctx.attempts ∧
      (recordDecisions decisions ctx).sensitiveState = ctx.sensitiveState := by
  rw [recordDecisions, ExecutionContext.foldl_recordOutcome]
  exact ⟨rfl, rfl, rfl⟩

theorem evaluateCurrent_meets (s : Exchange) :
    (evaluateCurrent a h).Meets s
      (fun _ s' => s'.robotsSent = s.robotsSent ∧ ∃ url, a.policy.Accepts h.addresses s.current s.previous url ∧
        s'.core = {s.core with current := url})
      fun _ s' => s' = s := by
  simp only [evaluateCurrent, meets_bind, meets_get, meets_ofExcept, meets_modify]
  refine ⟨?_, fun _ _ => trivial⟩
  rintro ⟨url, decisions, validated⟩ heval
  refine ⟨trivial, url, ?_, ?_⟩
  · cases hp : a.policy.evaluate s.validated h.addresses s.current s.previous with
    | error err => simp [hp, Except.mapError] at heval
    | ok r =>
      simp only [hp, Except.mapError, Except.ok.injEq] at heval
      rw [heval] at hp
      exact ⟨_, _, _, hp⟩
  · have hkept := recordDecisions_request decisions s.context
    simp [Exchange.core, hkept.1, hkept.2.1, hkept.2.2]

theorem enterUrl_meets (s : Exchange) :
    (enterUrl a).Meets s
      (fun _ s' => s'.robotsSent = s.robotsSent ∧ s.current ∉ s.visited ∧
        s'.core = {s.core with visited := s.current :: s.visited})
      fun _ s' => s'.robotsSent = s.robotsSent ∧ ∃ visited, s'.core = {s.core with visited} := by
  simp only [enterUrl, splitUrl, meets_bind, meets_get, meets_check, meets_modify, meets_ofOption]
  refine ⟨fun hfresh => ⟨fun _ _ => ⟨fun _ => ⟨trivial, ?_, rfl⟩, fun _ => ⟨trivial, _, rfl⟩⟩,
    fun _ => ⟨trivial, _, rfl⟩⟩, fun _ => ⟨trivial, s.visited, rfl⟩⟩
  simpa using hfresh

/-- The login cookies are those of the current origin, or there are none. -/
theorem withholdCookies_meets (s : Exchange) :
    (withholdCookies a).Meets s
      (fun _ s' => s'.robotsSent = s.robotsSent ∧
        ((s'.core = s.core ∧ ∀ o, s.ephemeralCookieOrigin = some o → canonicalOrigin a.codecs s.current = some o) ∨
          s'.core = {s.core with cookies := ∅, cookieOrigin := none}))
      fun _ s' => s' = s := by
  simp only [withholdCookies, meets_bind, meets_get]
  split
  · rename_i hnone
    simp [hnone]
  · rename_i o hsome
    simp only [meets_bind, meets_ofOption, meets_when, meets_modify]
    refine ⟨fun origin horigin => ⟨fun _ => ⟨trivial, .inr rfl⟩, fun heq => ⟨trivial, .inl ⟨trivial, ?_⟩⟩⟩, fun _ => trivial⟩
    intro o' ho'
    rw [hsome] at ho'
    cases ho'
    rw [horigin, not_not.mp heq]

/-- The `robots.txt` of a URL: at its scheme and authority. -/
def IsRobotsOf (url target : String) : Prop :=
  ∃ parts, urlsplit a.codecs.toTables target.toList = some parts ∧
    url = String.ofList parts.scheme ++ "://" ++ String.ofList parts.netloc ++ "/robots.txt"

/-- One `robots.txt` at most, by the client as it was opened and without cookies. -/
def RobotsAsked (s s' : Exchange) : Prop :=
  s'.core = s.core ∧ (s'.robotsSent = s.robotsSent ∨ ∃ url, IsRobotsOf a url s.current ∧
    s'.robotsSent = s.robotsSent ++ [{url, headers := s.client, jar := []}])

theorem enforceRobots_meets {origin : String} (maximumBytes : Int) (s : Exchange)
    (horigin : IsRobotsOf a (origin ++ "/robots.txt") s.current) :
    (enforceRobots a h origin maximumBytes).Meets s (fun _ s' => RobotsAsked a s s') fun _ s' => RobotsAsked a s s' := by
  simp only [enforceRobots, meets_bind, meets_check, meets_modify]
  refine ⟨fun _ => ?_, fun _ => ⟨rfl, .inl rfl⟩⟩
  split
  · refine (robotsFailed_keeps _).meets ?_ ?_
    · exact fun _ s' hcore hrobots => ⟨hcore, .inr ⟨_, horigin, hrobots⟩⟩
    · exact fun _ s' hcore hrobots => ⟨hcore, .inr ⟨_, horigin, hrobots⟩⟩
  · rename_i response _
    simp only [meets_bind, meets_modify, meets_get]
    refine (weighRobots_keeps a _ _ _ response).meets ?_ ?_
    · exact fun _ s' hcore hrobots => ⟨hcore, .inr ⟨_, horigin, hrobots⟩⟩
    · exact fun _ s' hcore hrobots => ⟨hcore, .inr ⟨_, horigin, hrobots⟩⟩

theorem checkRobots_meets (s : Exchange) :
    (checkRobots a h).Meets s (fun _ s' => RobotsAsked a s s') fun _ s' => RobotsAsked a s s' := by
  simp only [checkRobots, splitUrl, meets_bind, meets_get, meets_ofOption]
  refine ⟨fun parts hparts => ?_, fun _ => ⟨rfl, .inl rfl⟩⟩
  rw [meets_ite]
  refine ⟨fun _ => ?_, fun _ => ⟨rfl, .inl rfl⟩⟩
  simp only [meets_bind, meets_modify, meets_pure]
  have horigin : IsRobotsOf a (String.ofList parts.scheme ++ "://" ++ String.ofList parts.netloc ++ "/robots.txt")
      s.current := ⟨parts, hparts, rfl⟩
  refine (enforceRobots_meets a h _ {s with robotsChecked := _, jar := []} horigin).mono ?_ ?_
  · exact fun _ s' asked => ⟨asked.1, asked.2⟩
  · exact fun _ s' asked => ⟨asked.1, asked.2⟩

/-! ### The credential of the hop -/

/-- The refresh was allowed: a safe method, and one session behind the call and the
credential it replaces. -/
structure Refresh.Asked (x : Refresh) (c : Core) (existing : CredentialMaterial) : Prop where
  method : x.method = c.method
  safe : isSafeMethod x.method = true
  replaces : x.existing = existing
  session : c.secrets.get? "origin_scoped_session" = some (.session x.session)
  reference : c.request.authenticationRef = some x.session.authenticationRef
  bound : x.session.bindsMaterial existing = true

theorem Refresh.Asked.of_eq {x : Refresh} {c c' : Core} {existing : CredentialMaterial} (hx : x.Asked c existing)
    (hmethod : c'.method = c.method) (hsecrets : c'.secrets = c.secrets) (hrequest : c'.request = c.request) :
    x.Asked c' existing :=
  ⟨hx.method.trans hmethod.symm, hx.safe, hx.replaces, hsecrets ▸ hx.session, hrequest ▸ hx.reference, hx.bound⟩

/-- What a refresh brought: unexpired, bound to the session and of the same kind. -/
structure Refresh.Brings (x : Refresh) (m : CredentialMaterial) : Prop where
  reply : x.reply = .material m
  unexpired : m.expired x.receivedAt = false
  bound : x.session.bindsMaterial m = true
  kind : m.capabilityId = x.existing.capabilityId

theorem refreshSession_eq_some {ctx : ExecutionContext} {existing : CredentialMaterial} {session : OriginScopedSession}
    (hs : refreshSession ctx existing = some session) :
    ctx.sensitiveState.get? "origin_scoped_session" = some (.session session) ∧
      ctx.request.authenticationRef = some session.authenticationRef := by
  unfold refreshSession at hs
  split at hs
  · rename_i session' reference hsession hreference
    split at hs
    · rename_i hguard
      cases hs
      exact ⟨hsession, by rw [hreference, hguard.1]⟩
    · cases hs
  · cases hs

theorem acceptRefresh_eq_ok {session : OriginScopedSession} {existing m : CredentialMaterial} {now : ℚ}
    {reply : ProviderReply} (hok : acceptRefresh session existing now reply = .ok m) :
    reply = .material m ∧ m.expired now = false ∧ session.bindsMaterial m = true ∧
      m.capabilityId = existing.capabilityId := by
  cases reply with
  | material m' =>
    simp only [acceptRefresh] at hok
    split at hok
    · cases hok
    split at hok
    · cases hok
    split at hok
    · cases hok
    rename_i hexpired hbound hkind
    cases hok
    exact ⟨rfl, by simpa using hexpired, by simpa using hbound, not_not.mp hkind⟩
  | _ => cases hok

/-- Either nothing was asked of the provider, or one allowed refresh. -/
def RefreshTried (s s' : Exchange) (existing : CredentialMaterial) (alreadyAttempted : Bool) : Prop :=
  s'.robotsSent = s.robotsSent ∧ (s'.core = s.core ∨ alreadyAttempted = false ∧
    ∃ x : Refresh, x.Asked s.core existing ∧ s'.core = {s.core with refreshes := s.refreshes ++ [x]})

theorem reportRefresh_meets (capabilityId : String) (accepted : Except (String × HttpError) CredentialMaterial)
    (s : Exchange) :
    (reportRefresh capabilityId accepted).Meets s
      (fun m s' => accepted = .ok m ∧ s'.core = s.core ∧ s'.robotsSent = s.robotsSent)
      fun _ s' => s'.core = s.core ∧ s'.robotsSent = s.robotsSent := by
  cases accepted with
  | error failure =>
    simp only [reportRefresh, meets_bind, meets_raise]
    exact Keeps.recordRuntimeEvent _ _ _ s
  | ok m =>
    simp only [reportRefresh, meets_bind, meets_pure, true_and]
    exact (meets_bind _ _).mp (((Keeps.recordOutcome _ _ _ _).bind fun _ => .recordRuntimeEvent _ _ _) s)

theorem refreshCredential_meets (existing : CredentialMaterial) (alreadyAttempted : Bool) (s : Exchange) :
    (refreshCredential a h existing alreadyAttempted).Meets s
      (fun m s' => s'.robotsSent = s.robotsSent ∧ alreadyAttempted = false ∧ ∃ x : Refresh, x.Asked s.core existing ∧
        x.Brings m ∧ s'.core = {s.core with refreshes := s.refreshes ++ [x]})
      fun _ s' => RefreshTried s s' existing alreadyAttempted := by
  simp only [refreshCredential, meets_bind, meets_get, meets_check, meets_ofOption]
  have hnothing : RefreshTried s s existing alreadyAttempted := ⟨rfl, .inl rfl⟩
  refine ⟨fun hallowed => ⟨fun session hsession => ⟨fun hbound => ⟨fun _ => ?_, fun _ => hnothing⟩,
    fun _ => hnothing⟩, fun _ => hnothing⟩, fun _ => hnothing⟩
  simp only [Bool.and_eq_true, Bool.not_eq_true'] at hallowed
  obtain ⟨hstate, hreference⟩ := refreshSession_eq_some hsession
  refine (Keeps.recordRuntimeEvent _ _ _).meets ?_ fun _ s' hcore hrobots => ⟨hrobots, .inl hcore⟩
  intro _ t hcore hrobots
  rw [meets_modify]
  let x : Refresh := {method := t.method, session, existing, reply := h.refresh, receivedAt := h.refreshedAt}
  have hmethod : x.method = s.method := congrArg Core.method hcore
  have hasked : x.Asked s.core existing :=
    ⟨hmethod, hmethod ▸ hallowed.2, rfl, hstate, hreference, hbound⟩
  have hcore' : ({t with refreshes := t.refreshes ++ [x]} : Exchange).core =
      {s.core with refreshes := s.refreshes ++ [x]} := by
    have hrefreshes : t.refreshes = s.refreshes := congrArg Core.refreshes hcore
    rw [← hcore, ← hrefreshes]
    rfl
  refine (reportRefresh_meets _ _ _).mono ?_ ?_
  · rintro m u ⟨haccept, hu, hu'⟩
    obtain ⟨hreply, hunexpired, hbinds, hkind⟩ := acceptRefresh_eq_ok haccept
    exact ⟨hu'.trans hrobots, hallowed.1, x, hasked, ⟨hreply, hunexpired, hbinds, hkind⟩, hu.trans hcore'⟩
  · rintro _ u ⟨hu, hu'⟩
    exact ⟨hu'.trans hrobots, .inr ⟨hallowed.1, x, hasked, hu.trans hcore'⟩⟩

/-- A call that raised: nothing was sent by the step, no secret replaced, and the
provider was asked at most once more. -/
structure Stopped (c c' : Core) : Prop where
  sent : c'.sent = c.sent
  secrets : c'.secrets = c.secrets
  refreshes : c'.refreshes = c.refreshes ∨ c.refreshAttempted = false ∧
    ∃ (x : Refresh) (existing : CredentialMaterial), x.Asked c existing ∧ c'.refreshes = c.refreshes ++ [x]

theorem Stopped.refl (c : Core) : Stopped c c := ⟨rfl, rfl, .inl rfl⟩

/-- The credential held now is the one the refresh brought. -/
def adopt (c : Core) (x : Refresh) (m : CredentialMaterial) : Core :=
  {c with
    credential := some m, refreshAttempted := true, refreshes := c.refreshes ++ [x]
    secrets := c.secrets.set "credential_material" (.material m)}

theorem adoptCredential_core {t : Exchange} {c : Core} {x : Refresh} {m : CredentialMaterial}
    (hcore : t.core = {c with refreshes := c.refreshes ++ [x]}) : (adoptCredential m t).2.core = adopt c x m := by
  have h : ({t.core with
      credential := some m, refreshAttempted := true
      secrets := t.core.secrets.set "credential_material" (.material m)} : Core) = adopt c x m := by
    rw [hcore]
    rfl
  exact h

/-- Where a first credential comes from. -/
def Obtained (c : Core) (h : Hop) (m : CredentialMaterial) : Prop :=
  c.secrets.get? "credential_material" = some (.material m) ∨ h.resolve = .material m

theorem obtainCredential_eq_ok {ctx : ExecutionContext} {reply : ProviderReply} {m : CredentialMaterial}
    (hok : obtainCredential ctx reply = .ok m) :
    ctx.sensitiveState.get? "credential_material" = some (.material m) ∨ reply = .material m := by
  unfold obtainCredential at hok
  split at hok
  · rename_i m' hcached
    cases hok
    exact .inl hcached
  · cases reply with
    | material m' =>
      cases hok
      exact .inr rfl
    | _ => cases hok

theorem appliesTo_eq {c : Codecs} {m : CredentialMaterial} {url : String} {applies : Bool}
    (happlies : m.appliesTo c url = some applies) :
    applies = true ↔ canonicalOrigin c url = some m.origin := by
  obtain ⟨o, ho, rfl⟩ := Option.map_eq_some_iff.mp happlies
  simp [ho]

/-- The call has a credential to settle. -/
def Unsettled (c : Core) : Prop :=
  call.credentialMode = .request ∧ c.request.authenticationRef.isSome = true ∧ c.credential = none

/-- What settling the credential comes to. -/
inductive Settled (c c' : Core) : Prop where
  | unchanged (hsettled : ¬ Unsettled call c) (hc : c' = c)
  | obtained (m : CredentialMaterial) (hunsettled : Unsettled call c) (hm : Obtained c h m)
      (hc : c' = {c with credential := some m})
  | refreshed (m m' : CredentialMaterial) (x : Refresh) (hunsettled : Unsettled call c) (hm : Obtained c h m)
      (hattempted : c.refreshAttempted = false) (hasked : x.Asked c m) (hbrings : x.Brings m')
      (hc : c' = adopt c x m')

theorem settleCredential_meets (s : Exchange) :
    (settleCredential a call h).Meets s
      (fun _ s' => s'.robotsSent = s.robotsSent ∧ Settled call h s.core s'.core)
      fun _ s' => s'.robotsSent = s.robotsSent ∧ Stopped s.core s'.core := by
  simp only [settleCredential, meets_bind, meets_get, meets_when, meets_ofExcept, meets_modify, meets_ofOption]
  refine ⟨fun hguard => ⟨fun m hm => ⟨fun applies happlies => ⟨fun _ => ?_, fun _ => ⟨fun _ => ?_, fun _ => ?_⟩⟩,
    fun _ => ?_⟩, fun _ _ => ⟨trivial, .refl _⟩⟩, fun hguard => ⟨trivial, .unchanged hguard rfl⟩⟩
  · refine (refuseCredential_meets a _ _).mono (fun _ _ => False.elim) ?_
    rintro _ t ⟨hcore, hrobots⟩
    rw [hcore]
    exact ⟨hrobots, rfl, rfl, .inl rfl⟩
  · rw [meets_check]
    refine ⟨fun _ => ?_, fun _ => ⟨rfl, rfl, rfl, .inl rfl⟩⟩
    refine (refreshCredential_meets a h m s.refreshAttempted _).mono ?_ ?_
    · rintro m' t ⟨hrobots, hattempted, x, hasked, hbrings, hcore⟩
      rw [adoptCredential, meets_modify]
      refine ⟨hrobots, .refreshed m m' x hguard (obtainCredential_eq_ok hm) hattempted
        (hasked.of_eq rfl rfl rfl) hbrings ?_⟩
      exact adoptCredential_core (c := {s.core with credential := some m}) hcore
    · rintro _ t ⟨hrobots, hcore | ⟨hattempted, x, hasked, hcore⟩⟩
      · rw [hcore]
        exact ⟨hrobots, rfl, rfl, .inl rfl⟩
      · rw [hcore]
        exact ⟨hrobots, rfl, rfl, .inr ⟨hattempted, x, m, hasked.of_eq rfl rfl rfl, rfl⟩⟩
  · exact ⟨trivial, .obtained m hguard (obtainCredential_eq_ok hm) rfl⟩
  · exact ⟨trivial, rfl, rfl, .inl rfl⟩

/-! ### The request of the hop -/

/-- The headers of a hop, the credential's among them where it applies. -/
def credentialHeaders (c : Core) : Dict String String :=
  match c.credential with
  | none => c.headers
  | some m =>
    if canonicalOrigin a.codecs c.current = some m.origin then c.headers.update m.requestHeaders else c.headers

theorem applyCredential_meets (s : Exchange) :
    (applyCredential a).Meets s
      (fun r s' => r.1 = credentialHeaders a s.core ∧ s'.core = s.core ∧ s'.robotsSent = s.robotsSent)
      fun _ s' => s'.core = s.core ∧ s'.robotsSent = s.robotsSent := by
  simp only [applyCredential, meets_bind, meets_get]
  cases hcredential : s.credential with
  | none => exact ⟨by simp [credentialHeaders, Exchange.core, hcredential], rfl, rfl⟩
  | some m =>
    have hheaders : credentialHeaders a s.core =
        if canonicalOrigin a.codecs s.current = some m.origin then s.headers.update m.requestHeaders else s.headers := by
      simp [credentialHeaders, Exchange.core, hcredential]
    simp only [meets_bind, meets_ofOption, meets_ite, meets_pure, sanitized]
    refine ⟨fun applies happlies => ⟨fun destination _ => ⟨fun hyes => ?_, fun hno => ?_⟩, fun _ => ⟨trivial, trivial⟩⟩,
      fun _ => ⟨trivial, trivial⟩⟩
    · rw [hheaders, if_pos ((appliesTo_eq happlies).mp hyes)]
      simp only [true_and]
      exact (meets_bind _ _).mp (((Keeps.recordDecision _).bind fun _ => recordCredentialUse_keeps m) s)
    · rw [hheaders, if_neg fun ho => hno ((appliesTo_eq happlies).mpr ho)]
      simp only [true_and]
      exact (meets_bind _ _).mp (((Keeps.recordDecision _).bind fun _ => .recordOutcome _ _ _ _) s)

/-- What login cookies add to the headers of a hop: nothing, or one header with cookies
of this origin. -/
inductive CookiesApplied (c : Core) (headers : Dict String String) : Dict String String × List EphemeralCookie → Prop
  | none : CookiesApplied c headers (headers, [])
  | some (origin : String) (path : List Char) (hallowed : call.allowEphemeralLoginCookies = true)
      (horigin : canonicalOrigin a.codecs c.current = some origin) (hcookies : c.cookieOrigin = some origin)
      (hpath : targetPath a.codecs c.current = some path) (hsome : selectCookies c.cookies path ≠ [])
      (hlength : (renderCookies (selectCookies c.cookies path)).length ≤ cookieHeaderLimit) :
      CookiesApplied c headers
        (headers.set "Cookie" (renderCookies (selectCookies c.cookies path)), selectCookies c.cookies path)

theorem renderEphemeralCookieHeader_eq_ok {c : Codecs} {cookies : CookieMap} {url : String}
    {r : List EphemeralCookie × Option String} {text : String}
    (hok : renderEphemeralCookieHeader c cookies url = .ok r) (htext : r.2 = some text) :
    ∃ path, targetPath c url = some path ∧ selectCookies cookies path ≠ [] ∧ r.1 = selectCookies cookies path ∧
      text = renderCookies (selectCookies cookies path) ∧ text.length ≤ cookieHeaderLimit := by
  simp only [renderEphemeralCookieHeader, Except.bind_eq_ok, Except.ofOption_eq_ok] at hok
  obtain ⟨path, hpath, hok⟩ := hok
  refine ⟨path, hpath, ?_⟩
  split at hok
  · cases hok
    cases htext
  · rename_i hsome
    simp only [Except.bind_eq_ok, encodedLength, Except.require_eq_ok] at hok
    obtain ⟨length, ⟨_, _, hlength⟩, _, hlimit, hreturn⟩ := hok
    cases hreturn
    cases htext
    cases hlength
    exact ⟨by simpa using hsome, rfl, rfl, by simpa using hlimit⟩

theorem applyCookies_meets (headers : Dict String String) (s : Exchange) :
    (applyCookies a call headers).Meets s
      (fun r s' => CookiesApplied a call s.core headers r ∧ s'.core = s.core ∧ s'.robotsSent = s.robotsSent)
      fun _ s' => s'.core = s.core ∧ s'.robotsSent = s.robotsSent := by
  simp only [applyCookies, meets_bind, meets_get, meets_ite, meets_ofOption, meets_ofExcept, meets_pure]
  refine ⟨fun hallowed => ⟨fun origin horigin => ⟨fun hcookies => ⟨?_, fun _ _ => ⟨trivial, trivial⟩⟩, fun _ => ?_⟩,
    fun _ => ⟨trivial, trivial⟩⟩, fun _ => ?_⟩
  · rintro ⟨cookies, header⟩ hrender
    cases header with
    | none => exact ⟨.none, rfl, rfl⟩
    | some text =>
      have hok : renderEphemeralCookieHeader a.codecs s.ephemeralCookies s.current = .ok (cookies, some text) := by
        cases hr : renderEphemeralCookieHeader a.codecs s.ephemeralCookies s.current with
        | error err => simp [hr, Except.mapError] at hrender
        | ok r => simpa [hr, Except.mapError] using hrender
      obtain ⟨path, hpath, hsome, rfl, rfl, hlength⟩ := renderEphemeralCookieHeader_eq_ok hok rfl
      simp only [meets_bind, meets_modify, meets_pure]
      exact ⟨.some origin path hallowed horigin hcookies hpath hsome hlength, rfl, trivial⟩
  · exact ⟨.none, trivial, trivial⟩
  · exact ⟨.none, trivial, trivial⟩

/-- The request as it goes over the wire. -/
def posted (c : Core) (headers : Dict String String) (cookies : List EphemeralCookie)
    (reply : Except HttpError Response) : Sent where
  url := c.current
  method := c.method
  headers := mergeHeaders c.client headers.entries
  body := c.requestBody
  credential := c.credential
  cookies := cookies
  reply := reply

def post (c : Core) (headers : Dict String String) (cookies : List EphemeralCookie)
    (reply : Except HttpError Response) : Core :=
  {c with sent := c.sent ++ [posted c headers cookies reply]}

theorem sendRequest_meets (robotsFetched : Bool) (headers : Dict String String) (cookies : List EphemeralCookie)
    (s : Exchange) :
    (sendRequest h robotsFetched headers cookies).Meets s
      (fun response s' => h.reply = .ok response ∧ s'.core = post s.core headers cookies h.reply ∧
        s'.robotsSent = s.robotsSent)
      fun _ s' => (s'.core = s.core ∨ s'.core = post s.core headers cookies h.reply) ∧
        s'.robotsSent = s.robotsSent := by
  simp only [sendRequest, meets_bind, meets_modify]
  refine (takePublisherSlot_meets h robotsFetched _).mono ?_ ?_
  · rintro _ t rfl
    rw [meets_ofExcept]
    exact ⟨fun response hreply => ⟨hreply, rfl, rfl⟩, fun _ _ => ⟨.inr rfl, rfl⟩⟩
  · rintro _ t rfl
    exact ⟨.inl rfl, rfl⟩

/-! ### The answer of the hop -/

/-- Method, body and headers after a redirect. -/
def switched (status : Nat) (c : Core) : Core :=
  if status = 303 ∨ ((status = 301 ∨ status = 302) ∧ c.method = "POST") then
    {c with method := "GET", requestBody := none, headers := c.headers.erase "Content-Type"}
  else c

theorem switchMethod_meets (status : Nat) (redirected : String) (s : Exchange) :
    (switchMethod a status redirected).Meets s
      (fun _ s' => s'.core = switched status s.core ∧ (switched status s.core).requestBody = none ∧
        s'.robotsSent = s.robotsSent)
      fun _ s' => s'.core = s.core ∧ s'.robotsSent = s.robotsSent := by
  simp only [switchMethod, meets_bind, meets_get, meets_ite, meets_modify, meets_pure]
  refine ⟨fun hswitch => ?_, fun hno => ⟨fun _ => ?_, fun hbody => ?_⟩⟩
  · have heq : switched status s.core =
        {s.core with method := "GET", requestBody := none, headers := s.headers.erase "Content-Type"} := if_pos hswitch
    rw [heq]
    exact ⟨rfl, rfl, trivial⟩
  · exact (refuseReplay_meets a redirected s).mono (fun _ _ => False.elim) fun _ _ kept => kept
  · have heq : switched status s.core = s.core := if_neg hno
    have hnone : s.requestBody = none := by simpa using hbody
    rw [heq]
    exact ⟨rfl, hnone, trivial⟩

/-- What becomes of the login cookies on a redirect from one URL to another. -/
inductive Handed (current : String) (cookies : CookieMap) (cookieOrigin : Option String) (response : Response)
    (redirected : String) : CookieMap → Option String → Prop
  | disabled (hallowed : call.allowEphemeralLoginCookies = false) :
      Handed current cookies cookieOrigin response redirected cookies cookieOrigin
  | captured (captured : CookieMap) (hsame : sameExactOrigin a.codecs current redirected = true)
      (hcaptured : captureEphemeralLoginCookies a.codecs h.capturedAt response.toResponseCookies current cookies =
        .ok captured) :
      Handed current cookies cookieOrigin response redirected captured
        (if captured.size = 0 then none else canonicalOrigin a.codecs current)
  | dropped : Handed current cookies cookieOrigin response redirected ∅ none

/-- The core after a redirect. -/
inductive Redirected (c : Core) (response : Response) : Core → Prop
  | intro (redirected : String) (cookies : CookieMap) (cookieOrigin : Option String)
      (hbody : (switched response.status c).requestBody = none)
      (hhanded : Handed a call h c.current c.cookies c.cookieOrigin response redirected cookies cookieOrigin)
      (hreplay : call.allowEphemeralLoginCookies = true → ¬ (response.status = 307 ∨ response.status = 308)) :
      Redirected c response {switched response.status c with
        previous := some c.current, current := redirected, cookies, cookieOrigin}

theorem handCookies_meets (response : Response) (redirected : String) (s : Exchange) :
    (handCookies a h response redirected).Meets s
      (fun _ s' => s'.robotsSent = s.robotsSent ∧ ∃ cookies cookieOrigin,
        Handed a call h s.current s.ephemeralCookies s.ephemeralCookieOrigin response redirected cookies cookieOrigin ∧
          s'.core = {s.core with cookies, cookieOrigin})
      fun _ s' => s' = s := by
  simp only [handCookies, meets_bind, meets_get, meets_ite, meets_ofExcept, meets_modify]
  refine ⟨fun hsame => ⟨fun captured hcaptured => ⟨trivial, captured, _, ?_, rfl⟩, fun _ _ => trivial⟩, fun _ => ?_⟩
  · refine .captured captured hsame ?_
    cases hr : captureEphemeralLoginCookies a.codecs h.capturedAt response.toResponseCookies s.current
        s.ephemeralCookies with
    | error err => simp [hr, Except.mapError] at hcaptured
    | ok r => simpa [hr, Except.mapError] using hcaptured
  · exact ⟨trivial, ∅, none, .dropped, rfl⟩

theorem switched_current (status : Nat) (c : Core) :
    (switched status c).current = c.current ∧ (switched status c).cookies = c.cookies ∧
      (switched status c).cookieOrigin = c.cookieOrigin := by
  unfold switched
  split <;> exact ⟨rfl, rfl, rfl⟩

theorem switched_kept (status : Nat) (c : Core) :
    (switched status c).client = c.client ∧ (switched status c).request = c.request ∧
      (switched status c).secrets = c.secrets ∧ (switched status c).credential = c.credential ∧
      (switched status c).refreshAttempted = c.refreshAttempted ∧ (switched status c).refreshes = c.refreshes ∧
      (switched status c).sent = c.sent := by
  unfold switched
  split <;> exact ⟨rfl, rfl, rfl, rfl, rfl, rfl, rfl⟩

theorem Stopped.switched (status : Nat) (c : Core) : Stopped c (switched status c) := by
  unfold Http.switched
  split
  · exact ⟨rfl, rfl, .inl rfl⟩
  · exact .refl c

theorem redirectTo_meets (response : Response) (redirected : String) (s : Exchange) :
    (redirectTo a call h response redirected).Meets s
      (fun _ s' => s'.robotsSent = s.robotsSent ∧ Redirected a call h s.core response s'.core)
      fun _ s' => s'.robotsSent = s.robotsSent ∧ Stopped s.core s'.core := by
  rw [redirectTo, meets_bind, meets_when]
  refine ⟨fun _ => ?_, fun hreplay => ?_⟩
  · refine (refuseReplay_meets a redirected s).mono (fun _ _ => False.elim) ?_
    rintro _ t ⟨hcore, hrobots⟩
    exact ⟨hrobots, hcore ▸ .refl _⟩
  rw [meets_bind]
  refine (switchMethod_meets a _ _ _).mono ?_ fun _ t ht => ⟨ht.2, ht.1 ▸ .refl _⟩
  rintro _ t ⟨hcore, hbody, hrobots⟩
  obtain ⟨hurl, hcookies, horigin⟩ := switched_current response.status s.core
  have hcurrent : t.current = s.current := (congrArg Core.current hcore).trans hurl
  have hstored : t.ephemeralCookies = s.ephemeralCookies := (congrArg Core.cookies hcore).trans hcookies
  have hscope : t.ephemeralCookieOrigin = s.ephemeralCookieOrigin := (congrArg Core.cookieOrigin hcore).trans horigin
  -- Whatever became of the cookies, the URL is the last thing to change.
  have hmoved : ∀ (u : Exchange) (cookies : CookieMap) (cookieOrigin : Option String),
      Handed a call h s.current s.ephemeralCookies s.ephemeralCookieOrigin response redirected cookies cookieOrigin →
      u.core = {t.core with cookies, cookieOrigin} →
      Redirected a call h s.core response {u with previous := some u.current, current := redirected}.core := by
    intro u cookies cookieOrigin hhanded hu
    have hu' : ({u with previous := some u.current, current := redirected} : Exchange).core =
        {switched response.status s.core with
          previous := some s.current, current := redirected, cookies, cookieOrigin} := by
      have hucurrent : u.current = s.current := (congrArg Core.current hu).trans hcurrent
      show ({u.core with previous := some u.current, current := redirected} : Core) = _
      rw [hu, hcore, hucurrent]
    rw [hu']
    exact .intro redirected cookies cookieOrigin hbody hhanded fun hallowed hstatus => hreplay ⟨hallowed, hstatus⟩
  rw [meets_bind, meets_when]
  refine ⟨fun _ => (handCookies_meets a call h response redirected t).mono ?_ ?_, fun hdisabled => ?_⟩
  · rintro _ u ⟨hu, cookies, cookieOrigin, hhanded, hucore⟩
    rw [hcurrent, hstored, hscope] at hhanded
    exact ⟨hu.trans hrobots, hmoved u cookies cookieOrigin hhanded hucore⟩
  · rintro _ u rfl
    exact ⟨hrobots, hcore ▸ Stopped.switched _ _⟩
  · refine ⟨hrobots, hmoved t _ _ (.disabled (by simpa using hdisabled)) ?_⟩
    rw [← hstored, ← hscope]
    rfl

theorem followRedirect_meets (response : Response) (s : Exchange) :
    (followRedirect a call h response).Meets s
      (fun _ s' => s'.robotsSent = s.robotsSent ∧
        Redirected a call h {s.core with redirectStatuses := s.redirectStatuses ++ [response.status]} response s'.core)
      fun _ s' => s'.robotsSent = s.robotsSent ∧ Stopped s.core s'.core := by
  simp only [followRedirect, meets_bind, meets_modify, meets_get, meets_ofOption]
  refine ⟨fun location _ => ⟨fun joined _ => ?_, fun _ => ⟨trivial, rfl, rfl, .inl rfl⟩⟩,
    fun _ => ⟨trivial, rfl, rfl, .inl rfl⟩⟩
  refine (redirectTo_meets a call h response _ _).mono (fun _ t ht => ht) ?_
  rintro _ t ⟨hrobots, hsent, hsecrets, hrefreshes⟩
  refine ⟨hrobots, hsent, hsecrets, ?_⟩
  obtain hsame | ⟨hattempted, x, existing, hasked, hx⟩ := hrefreshes
  · exact .inl hsame
  · exact .inr ⟨hattempted, x, existing, hasked.of_eq rfl rfl rfl, hx⟩

theorem retryExpired_meets (m : CredentialMaterial) (s : Exchange) :
    (retryExpired a h m).Meets s
      (fun _ s' => s'.robotsSent = s.robotsSent ∧ s.refreshAttempted = false ∧ ∃ (x : Refresh) (m' : CredentialMaterial),
        x.Asked s.core m ∧ x.Brings m' ∧
          s'.core = {adopt s.core x m' with visited := s.visited.filter (· ≠ s.current)})
      fun _ s' => s'.robotsSent = s.robotsSent ∧ Stopped s.core s'.core := by
  simp only [retryExpired, meets_bind, meets_get, meets_check]
  refine ⟨fun hguard => ?_, fun _ => ⟨trivial, .refl _⟩⟩
  simp only [Bool.and_eq_true, Bool.not_eq_true'] at hguard
  refine (refreshCredential_meets a h m false s).mono ?_ ?_
  · rintro m' t ⟨hrobots, -, x, hasked, hbrings, hcore⟩
    rw [adoptCredential, meets_modify, meets_modify]
    refine ⟨hrobots, hguard.1.2, x, m', hasked, hbrings, ?_⟩
    have hvisited : t.visited = s.visited := congrArg Core.visited hcore
    have hcurrent : t.current = s.current := congrArg Core.current hcore
    have hadopted : (adoptCredential m' t).2.core = adopt s.core x m' := adoptCredential_core hcore
    show ({(adoptCredential m' t).2.core with visited := t.visited.filter (· ≠ t.current)} : Core) = _
    rw [hadopted, hvisited, hcurrent]
  · rintro _ t ⟨hrobots, hcore | ⟨-, x, hasked, hcore⟩⟩
    · exact ⟨hrobots, hcore ▸ .refl _⟩
    · rw [hcore]
      exact ⟨hrobots, rfl, rfl, .inr ⟨hguard.1.2, x, m, hasked, rfl⟩⟩

/-- What an answer comes to: the end, a redirect, or a refreshed credential. -/
inductive Answered (c : Core) (response : Response) : Option HttpResult → Core → Prop
  | finished (result : HttpResult) : Answered c response (some result) c
  | redirected (c' : Core) (hstatus : 300 ≤ response.status ∧ response.status ≤ 399)
      (hc : Redirected a call h {c with redirectStatuses := c.redirectStatuses ++ [response.status]} response c') :
      Answered c response none c'
  | refreshed (m m' : CredentialMaterial) (x : Refresh) (hstatus : response.status = 401)
      (hheld : c.credential = some m) (hattempted : c.refreshAttempted = false) (hasked : x.Asked c m) (hbrings : x.Brings m') :
      Answered c response none {adopt c x m' with visited := c.visited.filter (· ≠ c.current)}

/-- Whatever the answer, no request is added or taken back. -/
theorem Answered.sent {a : HttpAdapter} {call : HttpCall} {h : Hop} {c c' : Core} {response : Response}
    {r : Option HttpResult} (hanswered : Answered a call h c response r c') : c'.sent = c.sent := by
  cases hanswered with
  | finished => rfl
  | redirected _ _ hredirected =>
    obtain ⟨redirected, cookies, cookieOrigin, -, -⟩ := hredirected
    exact (switched_kept response.status _).2.2.2.2.2.2
  | refreshed => rfl

theorem handleResponse_meets (credentialApplied : Bool) (response : Response) (s : Exchange) :
    (handleResponse a call h credentialApplied response).Meets s
      (fun r s' => s'.robotsSent = s.robotsSent ∧ Answered a call h s.core response r s'.core)
      fun _ s' => s'.robotsSent = s.robotsSent ∧ Stopped s.core s'.core := by
  simp only [handleResponse, meets_bind, meets_get]
  rw [meets_ite]
  refine ⟨fun hstatus => ?_, fun _ => ?_⟩
  · rw [meets_bind]
    exact (followRedirect_meets a call h response s).mono
      (fun _ t ht => ⟨ht.1, .redirected t.core hstatus ht.2⟩) fun _ t ht => ht
  rw [meets_ite]
  refine ⟨fun _ => ⟨rfl, .refl _⟩, fun _ => ?_⟩
  split
  · rename_i m hexpired
    obtain ⟨hheld, hreported⟩ := Option.filter_eq_some_iff.mp hexpired
    have hstatus : response.status = 401 := (of_decide_eq_true hreported).1
    rw [meets_bind]
    refine (retryExpired_meets a h m s).mono ?_ fun _ t ht => ht
    rintro _ t ⟨hrobots, hattempted, x, m', hasked, hbrings, hcore⟩
    rw [meets_pure, hcore]
    exact ⟨hrobots, .refreshed m m' x hstatus hheld hattempted hasked hbrings⟩
  · rw [meets_ite]
    refine ⟨fun _ => ⟨rfl, .refl _⟩, fun _ => ?_⟩
    rw [meets_ite]
    refine ⟨fun _ => ⟨rfl, .refl _⟩, fun _ => ?_⟩
    rw [meets_bind]
    refine (finish_keeps call response).meets ?_ ?_
    · intro result t hcore hrobots
      rw [meets_pure, hcore]
      exact ⟨hrobots, .finished result⟩
    · intro _ t hcore hrobots
      exact ⟨hrobots, hcore ▸ .refl _⟩

end Fetech.Http
