import Fetech.Http.Turns

/-! Credentials stay within the origin they are scoped to.

A call holds one credential, cached or resolved before its first request, and at most
one refresh puts another in its place (`Holding`). Whatever chain the servers answer
with, a request carries the credential held only at the credential's own origin, and
every other request is made of the call's own headers (`credentials_confined`). -/
namespace Fetech.Http
open Lib Lib.Url Lib.Program

/-! ### What a call may send -/

/-- The credentials a call can begin with: the cached one, or what the provider
resolves on some turn. -/
def Provided (ctx : ExecutionContext) (world : World) (m : CredentialMaterial) : Prop :=
  ctx.sensitiveState.get? "credential_material" = some (.material m) ∨ ∃ k, (world.hop k).resolve = .material m

/-- The headers of the call itself, on the first hop and once a body was dropped. -/
def Plain (opening base : Dict String String) : Prop := base = opening ∨ base = opening.erase "Content-Type"

/-- What the headers of a request are made of. Only `credential` has anything of a
credential, and it asks that the URL is of the credential's origin; `login` is for calls
that hold none. -/
inductive Carries (a : HttpAdapter) (opening : Dict String String) (r : Sent) : Prop where
  | plain (base : Dict String String) (hbase : Plain opening base)
      (hheaders : r.headers = mergeHeaders (clientHeaders a opening) base.entries)
  | credential (base : Dict String String) (m : CredentialMaterial) (hbase : Plain opening base)
      (hheld : r.credential = some m) (horigin : canonicalOrigin a.codecs r.url = some m.origin)
      (hheaders : r.headers = mergeHeaders (clientHeaders a opening) (base.update m.requestHeaders).entries)
  | login (base : Dict String String) (text : String) (hbase : Plain opening base) (hheld : r.credential = none)
      (hheaders : r.headers = mergeHeaders (clientHeaders a opening) (base.set "Cookie" text).entries)

/-- A refresh that was allowed: a safe method, and the session of the call, bound to the
credential to be replaced. -/
structure Refresh.Allowed (x : Refresh) (ctx : ExecutionContext) : Prop where
  safe : x.method = "GET" ∨ x.method = "HEAD"
  session : ctx.sensitiveState.get? "origin_scoped_session" = some (.session x.session)
  reference : ctx.request.authenticationRef = some x.session.authenticationRef
  bound : x.session.bindsMaterial x.existing = true

/-- The credential of a request is the call's first one or what a refresh of that one
brought. -/
def Succeeds (first : Option CredentialMaterial) (refreshes : List Refresh) (held : Option CredentialMaterial) : Prop :=
  held = first ∨ ∃ x ∈ refreshes, ∃ m, first = some x.existing ∧ x.Brings m ∧ held = some m

/-- What holds of a call however it ends. -/
structure Confined (a : HttpAdapter) (call : HttpCall) (world : World) (ctx : ExecutionContext) (s : Exchange) :
    Prop where
  /-- Requests have nothing but the call's headers and, at its origin, the credential. -/
  sent : ∀ r ∈ s.sent, r.jar = [] ∧
    ((∃ method opening, initialRequest a call ctx = .ok (method, opening) ∧ Carries a opening r) ∨
      r.headers = [("User-Agent", a.userAgent)])
  /-- One credential at a time, replaced by a refresh only. -/
  held : ∃ first, (∀ m, first = some m → Provided ctx world m) ∧ ∀ r ∈ s.sent, Succeeds first s.refreshes r.credential
  /-- At most one refresh, and only an allowed one. -/
  refreshes : s.refreshes.length ≤ 1 ∧ ∀ x ∈ s.refreshes, x.Allowed ctx
  /-- The cached credential is replaced by what a refresh brought or not at all. -/
  cached : s.context.sensitiveState = ctx.sensitiveState ∨ ∃ x ∈ s.refreshes, ∃ m, x.Brings m ∧
    s.context.sensitiveState = ctx.sensitiveState.set "credential_material" (.material m)
  /-- Robots are asked for with the call's headers alone. -/
  robots : ∀ r ∈ s.robotsSent, r.jar = [] ∧ ∃ method opening,
    initialRequest a call ctx = .ok (method, opening) ∧ r.headers = clientHeaders a opening

/-! ### The invariant -/

variable {a : HttpAdapter} {call : HttpCall} {world : World} {ctx : ExecutionContext}
  {validated : ValidatedAddresses} {opening : Dict String String} {first : Option CredentialMaterial} {c c' : Core}

/-- The credential held: the first one, or the one a single refresh brought in its place. -/
inductive Holding (ctx : ExecutionContext) (first : Option CredentialMaterial) (c : Core) : Prop where
  | first (hcredential : c.credential = first) (hattempted : c.refreshAttempted = false) (hrefreshes : c.refreshes = [])
      (hsecrets : c.secrets = ctx.sensitiveState)
  | refreshed (x : Refresh) (m : CredentialMaterial) (hfirst : first = some x.existing) (hallowed : x.Allowed ctx)
      (hbrings : x.Brings m) (hcredential : c.credential = some m) (hattempted : c.refreshAttempted = true)
      (hrefreshes : c.refreshes = [x])
      (hsecrets : c.secrets = ctx.sensitiveState.set "credential_material" (.material m))

/-- What holds at the head of the loop. A credential yet to be settled means that
nothing was sent. -/
structure Scoped (a : HttpAdapter) (call : HttpCall) (world : World) (ctx : ExecutionContext)
    (opening : Dict String String) (first : Option CredentialMaterial) (c : Core) : Prop where
  client : c.client = clientHeaders a opening
  headers : Plain opening c.headers
  request : c.request = ctx.request
  provided : ∀ m, first = some m → Provided ctx world m
  holding : Holding ctx first c
  unsettled : Unsettled call c → c.sent = []
  anonymous : call.credentialMode = .anonymous → c.credential = none
  sent : ∀ r ∈ c.sent, r.jar = [] ∧ Carries a opening r ∧ Succeeds first c.refreshes r.credential

theorem Refresh.Asked.allowed {x : Refresh} {m : CredentialMaterial} (hx : x.Asked c m)
    (hsecrets : c.secrets = ctx.sensitiveState) (hrequest : c.request = ctx.request) : x.Allowed ctx where
  safe := by simpa [isSafeMethod] using hx.safe
  session := hsecrets ▸ hx.session
  reference := hrequest ▸ hx.reference
  bound := hx.replaces ▸ hx.bound

/-- Before a refresh was tried, the first credential is held. -/
theorem Holding.of_not_attempted (hholding : Holding ctx first c) (hattempted : c.refreshAttempted = false) :
    c.credential = first ∧ c.refreshes = [] ∧ c.secrets = ctx.sensitiveState := by
  cases hholding with
  | first hcredential _ hrefreshes hsecrets => exact ⟨hcredential, hrefreshes, hsecrets⟩
  | refreshed x m _ _ _ _ htried => simp [hattempted] at htried

theorem Holding.succeeds (hholding : Holding ctx first c) : Succeeds first c.refreshes c.credential := by
  cases hholding with
  | first hcredential => exact .inl hcredential
  | refreshed x m hfirst _ hbrings hcredential _ hrefreshes =>
    exact .inr ⟨x, by simp [hrefreshes], m, hfirst, hbrings, hcredential⟩

theorem Succeeds.mono {held : Option CredentialMaterial} {before after : List Refresh}
    (hsucceeds : Succeeds first before held) (hgrown : ∀ x ∈ before, x ∈ after) : Succeeds first after held := by
  obtain heq | ⟨x, hx, m, hm⟩ := hsucceeds
  · exact .inl heq
  · exact .inr ⟨x, hgrown x hx, m, hm⟩

/-! ### What a turn preserves -/

/-- The invariant does not look at URLs, cookies, methods and bodies. -/
theorem Scoped.of_eq (hs : Scoped a call world ctx opening first c) (hclient : c'.client = c.client)
    (hheaders : Plain opening c'.headers) (hrequest : c'.request = c.request) (hsecrets : c'.secrets = c.secrets)
    (hcredential : c'.credential = c.credential) (hattempted : c'.refreshAttempted = c.refreshAttempted)
    (hrefreshes : c'.refreshes = c.refreshes) (hsent : c'.sent = c.sent) : Scoped a call world ctx opening first c' where
  client := hclient.trans hs.client
  headers := hheaders
  request := hrequest.trans hs.request
  provided := hs.provided
  holding := by
    cases hs.holding with
    | first h₁ h₂ h₃ h₄ =>
      exact .first (hcredential.trans h₁) (hattempted.trans h₂) (hrefreshes.trans h₃) (hsecrets.trans h₄)
    | refreshed x m hfirst hallowed hbrings h₁ h₂ h₃ h₄ =>
      exact .refreshed x m hfirst hallowed hbrings (hcredential.trans h₁) (hattempted.trans h₂) (hrefreshes.trans h₃)
        (hsecrets.trans h₄)
  unsettled := by
    rintro ⟨hmode, hreference, hnone⟩
    rw [hsent]
    exact hs.unsettled ⟨hmode, hrequest ▸ hreference, hcredential ▸ hnone⟩
  anonymous := fun hmode => hcredential.trans (hs.anonymous hmode)
  sent := by
    rw [hsent, hrefreshes]
    exact hs.sent

/-- A refresh replaces the first credential by what it brought. -/
theorem Scoped.adopt {x : Refresh} {m m' : CredentialMaterial} (hs : Scoped a call world ctx opening first c)
    (hmode : call.credentialMode = .request) (hfirst : first = some m) (hheld : c.refreshAttempted = false)
    (hasked : x.Asked c m) (hbrings : x.Brings m') : Scoped a call world ctx opening first (adopt c x m') where
  client := hs.client
  headers := hs.headers
  request := hs.request
  provided := hs.provided
  holding := by
    obtain ⟨-, hrefreshes, hsecrets⟩ := hs.holding.of_not_attempted hheld
    refine .refreshed x m' (hasked.replaces ▸ hfirst) (hasked.allowed hsecrets hs.request) hbrings rfl rfl ?_ ?_
    · simp [Http.adopt, hrefreshes]
    · simp [Http.adopt, hsecrets]
  unsettled := fun hunsettled => nomatch hunsettled.2.2
  anonymous := fun hanonymous => by simp [hmode] at hanonymous
  sent := fun r hr => by
    obtain ⟨hjar, hcarries, hsucceeds⟩ := hs.sent r hr
    exact ⟨hjar, hcarries, hsucceeds.mono fun y hy => List.mem_append_left _ hy⟩

/-- A first credential in a call that has sent nothing yet. -/
theorem Scoped.obtain {k : Nat} {m : CredentialMaterial} (hs : Scoped a call world ctx opening first c)
    (hunsettled : Unsettled call c) (hattempted : c.refreshAttempted = false) (hm : Obtained c (world.hop k) m) :
    Scoped a call world ctx opening (some m) {c with credential := some m} where
  client := hs.client
  headers := hs.headers
  request := hs.request
  provided := by
    rintro _ ⟨⟩
    obtain ⟨-, -, hsecrets⟩ := hs.holding.of_not_attempted hattempted
    obtain hcached | hresolved := hm
    · exact .inl (hsecrets ▸ hcached)
    · exact .inr ⟨k, hresolved⟩
  holding := by
    obtain ⟨-, hrefreshes, hsecrets⟩ := hs.holding.of_not_attempted hattempted
    exact .first rfl hattempted hrefreshes hsecrets
  unsettled := fun h => nomatch h.2.2
  anonymous := fun hanonymous => by simp [hunsettled.1] at hanonymous
  sent := fun r hr => by
    rw [show c.sent = [] from hs.unsettled hunsettled] at hr
    cases hr

theorem Holding.not_attempted (hholding : Holding ctx first c) (hnone : c.credential = none) :
    c.refreshAttempted = false := by
  cases hholding with
  | first _ hattempted => exact hattempted
  | refreshed x m _ _ _ hcredential => simp [hnone] at hcredential

theorem Scoped.settled {k : Nat} (hs : Scoped a call world ctx opening first c)
    (hsettled : Settled call (world.hop k) c c') :
    ∃ first', Scoped a call world ctx opening first' c' ∧ ¬ Unsettled call c' := by
  cases hsettled with
  | unchanged hguard hc => exact ⟨first, hc ▸ hs, hc ▸ hguard⟩
  | obtained m hunsettled hm hc =>
    have hattempted := hs.holding.not_attempted hunsettled.2.2
    exact ⟨some m, hc ▸ hs.obtain hunsettled hattempted hm, hc ▸ fun h => nomatch h.2.2⟩
  | refreshed m m' x hunsettled hm hattempted hasked hbrings hc =>
    have hobtained := hs.obtain hunsettled hattempted hm
    have hadopted := hobtained.adopt hunsettled.1 rfl hattempted (hasked.of_eq rfl rfl rfl) hbrings
    exact ⟨some m, hc ▸ hadopted, hc ▸ fun h => nomatch h.2.2⟩

theorem Scoped.prepared {k : Nat} (hs : Scoped a call world ctx opening first c)
    (hprepared : Prepared a call (world.hop k) c c') :
    ∃ first', Scoped a call world ctx opening first' c' ∧ ¬ Unsettled call c' := by
  have harrived : ∀ c₁, Arrived a call (world.hop k) c c₁ →
      ∃ first', Scoped a call world ctx opening first' c₁ ∧ ¬ Unsettled call c₁ := by
    rintro c₁ ⟨url, _, -, hsettled⟩
    have hmoved : Scoped a call world ctx opening first {c with current := url} :=
      hs.of_eq rfl hs.headers rfl rfl rfl rfl rfl rfl
    exact hmoved.settled hsettled
  cases hprepared with
  | kept c₁ h₁ =>
    obtain ⟨first', hs', hguard⟩ := harrived c₁ h₁
    exact ⟨first', hs'.of_eq rfl hs'.headers rfl rfl rfl rfl rfl rfl, hguard⟩
  | withheld c₁ h₁ =>
    obtain ⟨first', hs', hguard⟩ := harrived c₁ h₁
    exact ⟨first', hs'.of_eq rfl hs'.headers rfl rfl rfl rfl rfl rfl, hguard⟩

/-- The request of a hop carries the credential only where it applies. -/
theorem Scoped.carries {headers : Dict String String} {cookies : List EphemeralCookie}
    {reply : Except HttpError Response} (hs : Scoped a call world ctx opening first c)
    (hmode : call.allowEphemeralLoginCookies = true → call.credentialMode = .anonymous)
    (hcookies : CookiesApplied a call c (credentialHeaders a c) (headers, cookies)) :
    Carries a opening (posted c headers cookies reply) := by
  cases hcookies with
  | none =>
    cases hcredential : c.credential with
    | none => exact .plain c.headers hs.headers (by simp [posted, credentialHeaders, hcredential, hs.client])
    | some m =>
      by_cases horigin : canonicalOrigin a.codecs c.current = some m.origin
      · exact .credential c.headers m hs.headers hcredential horigin
          (by simp [posted, credentialHeaders, hcredential, horigin, hs.client])
      · exact .plain c.headers hs.headers (by simp [posted, credentialHeaders, hcredential, horigin, hs.client])
  | some origin path hallowed =>
    have hnone : c.credential = none := hs.anonymous (hmode hallowed)
    exact .login c.headers (renderCookies (selectCookies c.cookies path)) hs.headers hnone
      (by simp [posted, credentialHeaders, hnone, hs.client])

theorem Scoped.post {headers : Dict String String} {cookies : List EphemeralCookie}
    {reply : Except HttpError Response} (hs : Scoped a call world ctx opening first c) (hguard : ¬ Unsettled call c)
    (hmode : call.allowEphemeralLoginCookies = true → call.credentialMode = .anonymous)
    (hcookies : CookiesApplied a call c (credentialHeaders a c) (headers, cookies)) :
    Scoped a call world ctx opening first (post c headers cookies reply) where
  client := hs.client
  headers := hs.headers
  request := hs.request
  provided := hs.provided
  holding := by
    cases hs.holding with
    | first h₁ h₂ h₃ h₄ => exact .first h₁ h₂ h₃ h₄
    | refreshed x m hfirst hallowed hbrings h₁ h₂ h₃ h₄ => exact .refreshed x m hfirst hallowed hbrings h₁ h₂ h₃ h₄
  unsettled := fun hunsettled => absurd hunsettled hguard
  anonymous := hs.anonymous
  sent := by
    intro r hr
    rcases List.mem_append.mp hr with hr | hr
    · exact hs.sent r hr
    · rw [List.mem_singleton] at hr
      subst hr
      exact ⟨rfl, hs.carries hmode hcookies, hs.holding.succeeds⟩

theorem Scoped.requested {k : Nat} (hs : Scoped a call world ctx opening first c)
    (hmode : call.allowEphemeralLoginCookies = true → call.credentialMode = .anonymous)
    (hrequested : Requested a call (world.hop k) c c') :
    ∃ first', Scoped a call world ctx opening first' c' ∧ ¬ Unsettled call c' := by
  obtain ⟨c₁, headers, cookies, hprepared, hcookies⟩ := hrequested
  obtain ⟨first', hs', hguard⟩ := hs.prepared hprepared
  exact ⟨first', hs'.post hguard hmode hcookies, hguard⟩

theorem Plain.switched {status : Nat} (hplain : Plain opening c.headers) :
    Plain opening (switched status c).headers := by
  unfold Http.switched
  split
  · obtain heq | heq := hplain
    · exact .inr (by rw [heq])
    · exact .inr (by rw [heq, Dict.erase_erase])
  · exact hplain

theorem Scoped.redirected {h : Hop} {response : Response} (hs : Scoped a call world ctx opening first c)
    (hredirected : Redirected a call h c response c') : Scoped a call world ctx opening first c' := by
  obtain ⟨redirected, cookies, cookieOrigin, -, -⟩ := hredirected
  obtain ⟨hclient, hrequest, hsecrets, hcredential, hattempted, hrefreshes, hsent⟩ := switched_kept response.status c
  exact hs.of_eq hclient hs.headers.switched hrequest hsecrets hcredential hattempted hrefreshes hsent

/-- Whatever the answer, the invariant holds on the next turn. -/
theorem Scoped.answered {h : Hop} {response : Response} {r : Option HttpResult}
    (hs : Scoped a call world ctx opening first c) (hanswered : Answered a call h c response r c') :
    Scoped a call world ctx opening first c' := by
  cases hanswered with
  | finished => exact hs
  | redirected _ _ hc =>
    have hcounted : Scoped a call world ctx opening first
        {c with redirectStatuses := c.redirectStatuses ++ [response.status]} :=
      hs.of_eq rfl hs.headers rfl rfl rfl rfl rfl rfl
    exact hcounted.redirected hc
  | refreshed m m' x _ hheld hattempted hasked hbrings =>
    have hmode : call.credentialMode = .request := by
      cases hmode : call.credentialMode with
      | request => rfl
      | anonymous => simp [hs.anonymous hmode] at hheld
    have hfirst : first = some m := (hs.holding.of_not_attempted hattempted).1 ▸ hheld
    have hadopted := hs.adopt hmode hfirst hattempted hasked hbrings
    exact hadopted.of_eq rfl hadopted.headers rfl rfl rfl rfl rfl rfl

/-! ### However a call ends -/

/-- Everything asked of the provider stays on record, and there was one refresh at most. -/
theorem Scoped.refreshes_grown (hs : Scoped a call world ctx opening first c) (hstopped : Stopped c c') :
    (∀ x ∈ c.refreshes, x ∈ c'.refreshes) ∧ c'.refreshes.length ≤ 1 ∧ ∀ x ∈ c'.refreshes, x.Allowed ctx := by
  obtain hsame | ⟨hattempted, x, existing, hasked, hgrown⟩ := hstopped.refreshes
  · rw [hsame]
    refine ⟨fun _ hx => hx, ?_⟩
    cases hs.holding with
    | first _ _ hrefreshes => simp [hrefreshes]
    | refreshed x m _ hallowed _ _ _ hrefreshes => simp [hrefreshes, hallowed]
  · obtain ⟨-, hrefreshes, hsecrets⟩ := hs.holding.of_not_attempted hattempted
    have hallowed : x.Allowed ctx := hasked.allowed hsecrets hs.request
    simp [hgrown, hrefreshes, hallowed]

/-- A robots request made of the client's headers alone. -/
def RobotsPlain (client : List (String × String)) (robotsSent : List RobotsSent) : Prop :=
  ∀ r ∈ robotsSent, r.headers = client ∧ r.jar = []

theorem RobotsPlain.kept {h : Hop} {client : List (String × String)} {c : Core} {before after : List RobotsSent}
    (hplain : RobotsPlain client before) (hkept : RobotsKept a h c before after) (hclient : c.client = client) :
    RobotsPlain client after := by
  obtain rfl | ⟨url, _, -, -, rfl⟩ := hkept
  · exact hplain
  · intro r hr
    rcases List.mem_append.mp hr with hr | hr
    · exact hplain r hr
    · rw [List.mem_singleton] at hr
      subst hr
      exact ⟨hclient, rfl⟩

/-- A step that raised leaves everything as it should be. -/
theorem Scoped.confined {s : Exchange} {method : String} (hopening : initialRequest a call ctx = .ok (method, opening))
    (hs : Scoped a call world ctx opening first c) (hstopped : Stopped c s.core)
    (hrobots : RobotsPlain (clientHeaders a opening) s.robotsSent) : Confined a call world ctx s := by
  have hsent' : s.sent = c.sent := hstopped.sent
  have hsecrets' : s.context.sensitiveState = c.secrets := hstopped.secrets
  have hgrown := hs.refreshes_grown hstopped
  refine ⟨?_, ⟨first, hs.provided, ?_⟩, hgrown.2, ?_, ?_⟩
  · intro r hr
    obtain ⟨hjar, hcarries, -⟩ := hs.sent r (hsent' ▸ hr)
    exact ⟨hjar, .inl ⟨method, opening, hopening, hcarries⟩⟩
  · intro r hr
    exact (hs.sent r (hsent' ▸ hr)).2.2.mono hgrown.1
  · rw [hsecrets']
    cases hs.holding with
    | first _ _ _ hunchanged => exact .inl hunchanged
    | refreshed x m _ _ hbrings _ _ hlist hset => exact .inr ⟨x, hgrown.1 x (by simp [hlist]), m, hbrings, hset⟩
  · intro r hr
    exact ⟨(hrobots r hr).2, method, opening, hopening, (hrobots r hr).1⟩

theorem Scoped.failed {k : Nat} {s : Exchange} {method : String}
    (hopening : initialRequest a call ctx = .ok (method, opening)) (hs : Scoped a call world ctx opening first c)
    (hmode : call.allowEphemeralLoginCookies = true → call.credentialMode = .anonymous)
    (hfailed : Failed a call (world.hop k) c s.core)
    (hrobots : RobotsPlain (clientHeaders a opening) s.robotsSent) : Confined a call world ctx s := by
  generalize hc : s.core = c' at hfailed
  cases hfailed with
  | early url _ hstopped =>
    have hmoved : Scoped a call world ctx opening first {c with current := url} :=
      hs.of_eq rfl hs.headers rfl rfl rfl rfl rfl rfl
    exact hmoved.confined hopening (hc ▸ hstopped) hrobots
  | arrived c₁ visited cookies cookieOrigin harrived =>
    obtain ⟨url, _, -, hsettled⟩ := harrived
    have hmoved : Scoped a call world ctx opening first {c with current := url} :=
      hs.of_eq rfl hs.headers rfl rfl rfl rfl rfl rfl
    obtain ⟨first', hs', -⟩ := hmoved.settled hsettled
    exact hs'.confined hopening (hc ▸ ⟨rfl, rfl, .inl rfl⟩) hrobots
  | requested c₁ _ hrequested hstopped =>
    obtain ⟨first', hs', -⟩ := hs.requested hmode hrequested
    exact hs'.confined hopening (hc ▸ hstopped) hrobots

/-- What an HTTP/3 call keeps: it sends no credential and asks for none. -/
structure Bare (a : HttpAdapter) (ctx : ExecutionContext) (c : Core) : Prop where
  secrets : c.secrets = ctx.sensitiveState
  credential : c.credential = none
  refreshes : c.refreshes = []
  sent : ∀ r ∈ c.sent, r.jar = [] ∧ r.headers = [("User-Agent", a.userAgent)] ∧ r.credential = none

theorem Bare.turn {h : Hop} (hb : Bare a ctx c) (hturn : Http3Turn a h c c') : Bare a ctx c' := by
  cases hturn with
  | silent current visited => exact ⟨hb.secrets, hb.credential, hb.refreshes, hb.sent⟩
  | sent url current previous redirectStatuses =>
    refine ⟨hb.secrets, hb.credential, hb.refreshes, fun r hr => ?_⟩
    rcases List.mem_append.mp hr with hr | hr
    · exact hb.sent r hr
    · rw [List.mem_singleton] at hr
      subst hr
      exact ⟨rfl, rfl, hb.credential⟩

theorem Bare.confined {s : Exchange} (hb : Bare a ctx s.core) (hrobots : s.robotsSent = []) :
    Confined a call world ctx s := by
  have hrefreshes : s.refreshes = [] := hb.refreshes
  refine ⟨fun r hr => ?_, ⟨none, by simp, fun r hr => ?_⟩, ?_, .inl hb.secrets, ?_⟩
  · obtain ⟨hjar, hheaders, -⟩ := hb.sent r hr
    exact ⟨hjar, .inr hheaders⟩
  · exact .inl (hb.sent r hr).2.2
  · simp [hrefreshes]
  · simp [hrobots]

/-- The state at the head of the loop. -/
def ScopedExchange (a : HttpAdapter) (call : HttpCall) (world : World) (ctx : ExecutionContext) (s : Exchange) : Prop :=
  ∃ method opening first, initialRequest a call ctx = .ok (method, opening) ∧
    (call.allowEphemeralLoginCookies = true → call.credentialMode = .anonymous) ∧
    Scoped a call world ctx opening first s.core ∧ RobotsPlain (clientHeaders a opening) s.robotsSent

theorem ScopedExchange.confined {s : Exchange} (hs : ScopedExchange a call world ctx s) :
    Confined a call world ctx s := by
  obtain ⟨method, opening, first, hopening, -, hscoped, hrobots⟩ := hs
  exact hscoped.confined hopening (.refl _) hrobots

theorem ScopedExchange.turn {s : Exchange} (hs : ScopedExchange a call world ctx s) (k : Nat) :
    (hop a call (world.hop k)).Meets s
      (fun r s' => if r.isSome then Confined a call world ctx s' else ScopedExchange a call world ctx s')
      fun _ s' => Confined a call world ctx s' := by
  obtain ⟨method, opening, first, hopening, hmode, hscoped, hrobots⟩ := hs
  have hclient : s.core.client = clientHeaders a opening := hscoped.client
  refine (hop_meets a call (world.hop k) s).mono ?_ ?_
  · rintro r t ⟨hkept, c', response, hrequested, -, hanswered⟩
    obtain ⟨first', hs', -⟩ := hscoped.requested hmode hrequested
    have ht : ScopedExchange a call world ctx t :=
      ⟨method, opening, first', hopening, hmode, hs'.answered hanswered, hrobots.kept hkept hclient⟩
    split
    · exact ht.confined
    · exact ht
  · rintro _ t ⟨hkept, hfailed⟩
    exact hscoped.failed hopening hmode hfailed (hrobots.kept hkept hclient)

/-- When the client opens no credential is held and nothing was sent. -/
theorem Scoped.opened {method : String} :
    Scoped a call world ctx opening none (opened a call ctx validated method opening) := by
  refine ⟨rfl, .inl rfl, rfl, by simp, .first rfl rfl rfl rfl, fun _ => rfl, fun _ => rfl, fun r hr => ?_⟩
  exact absurd (show r ∈ [] from hr) List.not_mem_nil

theorem opened_scoped {method : String} (hopening : initialRequest a call ctx = .ok (method, opening))
    (hmode : call.allowEphemeralLoginCookies = true → call.credentialMode = .anonymous) {s : Exchange}
    (hrobots : s.robotsSent = []) (hcore : s.core = opened a call ctx validated method opening) :
    ScopedExchange a call world ctx s := by
  refine ⟨method, opening, none, hopening, hmode, ?_, ?_⟩
  · rw [hcore]
    exact .opened
  · rw [hrobots]
    exact nofun

theorem Bare.hop {s : Exchange} (hb : Bare a ctx s.core ∧ s.robotsSent = []) (k : Nat) :
    (hopHttp3 a (world.hop k)).Meets s
      (fun r s' => if r.isSome then Confined a call world ctx s' else Bare a ctx s'.core ∧ s'.robotsSent = [])
      fun _ s' => Confined a call world ctx s' := by
  refine (hopHttp3_meets a (world.hop k) s).mono ?_ ?_
  · rintro r t ⟨hkept, hturn, -⟩
    have ht : Bare a ctx t.core ∧ t.robotsSent = [] := ⟨hb.1.turn hturn, hkept.trans hb.2⟩
    split
    · exact ht.1.confined ht.2
    · exact ht
  · rintro _ t ⟨hkept, hturn⟩
    exact (hb.1.turn hturn).confined (hkept.trans hb.2)

/-- **Credentials stay within their origin**: whatever the servers, the provider, the
policy and the clock answer, every request of a call is made of the call's own headers,
and carries the credential held only at a URL of the credential's origin; the credential
is replaced by one allowed refresh at most, and robots requests carry none. -/
theorem credentials_confined (a : HttpAdapter) (call : HttpCall) (world : World) (ctx : ExecutionContext)
    (validated : ValidatedAddresses) : Confined a call world ctx (exchange a call world ctx validated) := by
  have hbare : Bare a ctx (Exchange.initial ctx validated call).core :=
    ⟨rfl, rfl, rfl, fun r hr => absurd (show r ∈ [] from hr) List.not_mem_nil⟩
  exact request_meets a call world ctx validated (I := fun _ => ScopedExchange a call world ctx)
    (J := fun _ s => Bare a ctx s.core ∧ s.robotsSent = []) (E := Confined a call world ctx) (hbare.confined rfl)
    (fun _ hmode s method opening hopening _ hrobots hcore => opened_scoped hopening hmode hrobots hcore)
    (fun k _ s hs => hs.turn k) (fun s hs => hs.confined)
    (fun _ _ s hrobots hcore => ⟨hcore ▸ hbare, hrobots⟩) (fun k _ s hs => Bare.hop hs k) fun s hs => hs.1.confined hs.2

end Fetech.Http
