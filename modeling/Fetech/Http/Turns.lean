import Fetech.Http.Steps

/-! What a whole turn of the loop does, and the rule of the loop.

`hop_meets` and `hopHttp3_meets` put the rules of the steps together: they list every
way a turn can end, in terms of the core. `request_meets` is the induction over the
turns: what the first hop begins with and every turn preserves holds however the call
ends. -/
namespace Fetech.Http
open Lib Lib.Url Lib.Program

variable (a : HttpAdapter) (call : HttpCall) (h : Hop)

/-! ### One turn -/

/-- The core on the new URL, with its credential settled. -/
inductive Arrived (c : Core) : Core → Prop
  | intro (url : String) (c' : Core) (haccepted : a.policy.Accepts h.addresses c.current c.previous url)
      (hsettled : Settled call h {c with current := url} c') : Arrived c c'

/-- The core when the request of the hop is composed. -/
inductive Prepared (c : Core) : Core → Prop
  | kept (c' : Core) (harrived : Arrived a call h c c') (hfresh : c'.current ∉ c'.visited)
      (horigin : ∀ o, c'.cookieOrigin = some o → canonicalOrigin a.codecs c'.current = some o) :
      Prepared c {c' with visited := c'.current :: c'.visited}
  | withheld (c' : Core) (harrived : Arrived a call h c c') (hfresh : c'.current ∉ c'.visited) :
      Prepared c {c' with visited := c'.current :: c'.visited, cookies := ∅, cookieOrigin := none}

/-- The core with the request of the hop sent. -/
inductive Requested (c : Core) : Core → Prop
  | intro (c' : Core) (headers : Dict String String) (cookies : List EphemeralCookie) (hprepared : Prepared a call h c c')
      (hcookies : CookiesApplied a call c' (credentialHeaders a c') (headers, cookies)) :
      Requested c (post c' headers cookies h.reply)

/-- A turn that raised. -/
inductive Failed (c : Core) : Core → Prop
  | early (url : String) (c' : Core) (hstopped : Stopped {c with current := url} c') : Failed c c'
  | arrived (c' : Core) (visited : List String) (cookies : CookieMap) (cookieOrigin : Option String)
      (harrived : Arrived a call h c c') : Failed c {c' with visited, cookies, cookieOrigin}
  | requested (c' c'' : Core) (hrequested : Requested a call h c c') (hstopped : Stopped c' c'') : Failed c c''

theorem Failed.unchanged (c : Core) : Failed a call h c c := .early c.current c (.refl c)

theorem Prepared.failed {c c' : Core} (hprepared : Prepared a call h c c') : Failed a call h c c' := by
  cases hprepared with
  | kept c₁ harrived => exact .arrived c₁ _ c₁.cookies c₁.cookieOrigin harrived
  | withheld c₁ harrived => exact .arrived c₁ _ ∅ none harrived

/-- What the turn asked for robots, if anything: the `robots.txt` of a URL it let in. -/
def RobotsKept (c : Core) (before after : List RobotsSent) : Prop :=
  after = before ∨ ∃ url target, a.policy.Accepts h.addresses c.current c.previous target ∧ IsRobotsOf a url target ∧
    after = before ++ [{url, headers := c.client, jar := []}]

/-- Settling a credential changes the credential and what comes with it. -/
theorem Settled.fields {c c' : Core} (hsettled : Settled call h c c') :
    c'.client = c.client ∧ c'.current = c.current ∧ c'.previous = c.previous ∧ c'.visited = c.visited ∧
      c'.method = c.method ∧ c'.headers = c.headers ∧ c'.requestBody = c.requestBody ∧ c'.sent = c.sent ∧
        c'.request = c.request ∧ (c.refreshAttempted = true → c'.refreshAttempted = true) ∧
          (c'.refreshAttempted = c.refreshAttempted ∧ c'.refreshes = c.refreshes ∨ c'.refreshes ≠ []) := by
  cases hsettled with
  | unchanged _ hc => simp [hc]
  | obtained m _ _ hc => simp [hc]
  | refreshed m m' x _ _ _ _ _ hc => simp [hc, adopt]

/-- What a prepared request has from the core of the turn, and the URL let in. -/
structure Prepared.Kept (c c' : Core) : Prop where
  client : c'.client = c.client
  previous : c'.previous = c.previous
  method : c'.method = c.method
  headers : c'.headers = c.headers
  body : c'.requestBody = c.requestBody
  sent : c'.sent = c.sent
  request : c'.request = c.request
  attempted : c.refreshAttempted = true → c'.refreshAttempted = true
  refreshes : c'.refreshAttempted = c.refreshAttempted ∧ c'.refreshes = c.refreshes ∨ c'.refreshes ≠ []
  accepted : a.policy.Accepts h.addresses c.current c.previous c'.current
  fresh : c'.current ∉ c.visited
  visited : c'.visited = c'.current :: c.visited

theorem Prepared.kept' {c c' : Core} (hprepared : Prepared a call h c c') : Prepared.Kept a h c c' := by
  have harrive : ∀ c₁, Arrived a call h c c₁ → c₁.current ∉ c₁.visited →
      Prepared.Kept a h c {c₁ with visited := c₁.current :: c₁.visited} := by
    rintro c₁ ⟨url, _, haccepted, hsettled⟩ hfresh
    obtain ⟨hclient, hcurrent, hprevious, hvisited, hmethod, hheaders, hbody, hsent, hrequest, hattempted,
      hrefreshes⟩ := hsettled.fields
    rw [hvisited] at hfresh
    exact ⟨hclient, hprevious, hmethod, hheaders, hbody, hsent, hrequest, hattempted, hrefreshes, hcurrent ▸ haccepted,
      hfresh, congrArg (c₁.current :: ·) hvisited⟩
  cases hprepared with
  | kept c₁ harrived hfresh => exact harrive c₁ harrived hfresh
  | withheld c₁ harrived hfresh =>
    obtain ⟨hclient, hprevious, hmethod, hheaders, hbody, hsent, hrequest, hattempted, hrefreshes, haccepted, hnew,
      hvisited⟩ := harrive c₁ harrived hfresh
    exact ⟨hclient, hprevious, hmethod, hheaders, hbody, hsent, hrequest, hattempted, hrefreshes, haccepted, hnew,
      hvisited⟩

theorem arrive_meets (s : Exchange) :
    (arrive a call h).Meets s
      (fun _ s' => s'.robotsSent = s.robotsSent ∧ Prepared a call h s.core s'.core)
      fun _ s' => s'.robotsSent = s.robotsSent ∧ Failed a call h s.core s'.core := by
  rw [arrive, meets_bind]
  refine (takeSlot_keeps a h).meets ?_ fun _ t ht ht' => ⟨ht', ht ▸ .unchanged a call h _⟩
  intro _ t htcore htrobots
  rw [← htcore, ← htrobots, meets_bind]
  refine (evaluateCurrent_meets a h t).mono ?_ fun _ u hu => hu ▸ ⟨rfl, .unchanged a call h _⟩
  rintro _ u ⟨hurobots, url, haccepted, hucore⟩
  rw [← hurobots, meets_bind]
  refine (settleCredential_meets a call h u).mono ?_ fun _ v hv => ⟨hv.1, .early url _ (hucore ▸ hv.2)⟩
  rintro _ v ⟨hvrobots, hsettled⟩
  have harrived : Arrived a call h t.core v.core := .intro url v.core haccepted (hucore ▸ hsettled)
  rw [← hvrobots, meets_bind]
  refine (enterUrl_meets a v).mono ?_ ?_
  · rintro _ w ⟨hwrobots, hfresh, hwcore⟩
    rw [← hwrobots]
    refine (withholdCookies_meets a w).mono ?_ ?_
    · rintro _ x ⟨hxrobots, ⟨hxcore, horigin⟩ | hxcore⟩
      · refine ⟨hxrobots, ?_⟩
        have hcurrent : w.current = v.current := congrArg Core.current hwcore
        have hscope : w.ephemeralCookieOrigin = v.ephemeralCookieOrigin := congrArg Core.cookieOrigin hwcore
        rw [hcurrent, hscope] at horigin
        rw [hxcore, hwcore]
        exact .kept v.core harrived hfresh horigin
      · refine ⟨hxrobots, ?_⟩
        rw [hxcore, hwcore]
        exact .withheld v.core harrived hfresh
    · rintro _ x rfl
      rw [hwcore]
      exact ⟨rfl, .arrived v.core _ v.core.cookies v.core.cookieOrigin harrived⟩
  · rintro _ w ⟨hwrobots, visited, hwcore⟩
    rw [hwcore]
    exact ⟨hwrobots, .arrived v.core visited v.core.cookies v.core.cookieOrigin harrived⟩

/-- The second half of a turn: from a prepared core to the answer. -/
theorem exchangeCurrent_meets (s : Exchange) {c : Core} (hprepared : Prepared a call h c s.core) :
    (exchangeCurrent a call h).Meets s
      (fun r s' => RobotsKept a h c s.robotsSent s'.robotsSent ∧ ∃ c' response, Requested a call h c c' ∧
        h.reply = .ok response ∧ Answered a call h c' response r s'.core)
      fun _ s' => RobotsKept a h c s.robotsSent s'.robotsSent ∧ Failed a call h c s'.core := by
  have hfailed := hprepared.failed a call h
  have hkept : ∀ {s' : Exchange}, RobotsAsked a s s' → RobotsKept a h c s.robotsSent s'.robotsSent := by
    rintro s' ⟨-, hnone | ⟨url, hurl, hasked⟩⟩
    · exact .inl hnone
    · have hprepared' := hprepared.kept'
      have hclient : s.client = c.client := hprepared'.client
      rw [hclient] at hasked
      exact .inr ⟨url, s.current, hprepared'.accepted, hurl, hasked⟩
  rw [exchangeCurrent, meets_bind]
  refine (checkRobots_meets a h s).mono ?_ fun _ t ht => ⟨hkept ht, ht.1 ▸ hfailed⟩
  rintro robotsFetched t hasked
  have htcore := hasked.1
  -- From here on nothing is asked for robots.
  have hrobots : ∀ {s' : Exchange}, s'.robotsSent = t.robotsSent →
      RobotsKept a h c s.robotsSent s'.robotsSent := fun heq => heq ▸ hkept hasked
  rw [← htcore] at hprepared hfailed
  rw [meets_bind]
  refine (recordRateLimit_keeps a).meets ?_ fun _ u hu hu' => ⟨hrobots hu', hu ▸ hfailed⟩
  intro _ u hucore hurobots
  rw [← hucore] at hprepared hfailed
  rw [meets_bind]
  refine (applyCredential_meets a u).mono ?_ fun _ v hv => ⟨hrobots (hv.2.trans hurobots), hv.1 ▸ hfailed⟩
  rintro ⟨headers, credentialApplied⟩ v ⟨hheaders, hvcore, hvrobots⟩
  rw [← hvcore] at hprepared hfailed
  rw [meets_bind]
  refine (applyCookies_meets a call headers v).mono ?_
    fun _ w hw => ⟨hrobots (hw.2.trans (hvrobots.trans hurobots)), hw.1 ▸ hfailed⟩
  rintro ⟨headers', cookies⟩ w ⟨hcookies, hwcore, hwrobots⟩
  have hwrobots' := hwrobots.trans (hvrobots.trans hurobots)
  rw [show headers = credentialHeaders a w.core by rw [hwcore, hvcore]; exact hheaders, ← hwcore] at hcookies
  rw [← hwcore] at hprepared hfailed
  have hrequested : Requested a call h c (post w.core headers' cookies h.reply) :=
    .intro w.core headers' cookies hprepared hcookies
  rw [meets_bind]
  refine (sendRequest_meets h robotsFetched headers' cookies w).mono ?_ ?_
  · rintro response x ⟨hreply, hxcore, hxrobots⟩
    rw [← hxcore] at hrequested
    refine (handleResponse_meets a call h credentialApplied response x).mono ?_ ?_
    · rintro r y ⟨hyrobots, hanswered⟩
      exact ⟨hrobots (hyrobots.trans (hxrobots.trans hwrobots')), x.core, response, hrequested, hreply, hanswered⟩
    · rintro _ y ⟨hyrobots, hstopped⟩
      exact ⟨hrobots (hyrobots.trans (hxrobots.trans hwrobots')), .requested x.core y.core hrequested hstopped⟩
  · rintro _ x ⟨hxcore | hxcore, hxrobots⟩
    · exact ⟨hrobots (hxrobots.trans hwrobots'), hxcore ▸ hfailed⟩
    · exact ⟨hrobots (hxrobots.trans hwrobots'), hxcore ▸ .requested _ _ hrequested (.refl _)⟩

/-- **What a turn of the loop can do**, told by the core it starts from. -/
theorem hop_meets (s : Exchange) :
    (hop a call h).Meets s
      (fun r s' => RobotsKept a h s.core s.robotsSent s'.robotsSent ∧ ∃ c' response, Requested a call h s.core c' ∧
        h.reply = .ok response ∧ Answered a call h c' response r s'.core)
      fun _ s' => RobotsKept a h s.core s.robotsSent s'.robotsSent ∧ Failed a call h s.core s'.core := by
  rw [hop, meets_bind]
  refine (arrive_meets a call h s).mono ?_ fun _ t ht => ⟨.inl ht.1, ht.2⟩
  rintro _ t ⟨htrobots, hprepared⟩
  rw [← htrobots]
  exact exchangeCurrent_meets a call h t hprepared

/-! ### One turn over HTTP/3 -/

/-- A request of the HTTP/3 client. -/
def postedHttp3 (c : Core) : Sent where
  url := c.current
  method := "GET"
  headers := [("User-Agent", a.userAgent)]
  credential := c.credential
  reply := h.http3.map Http3Response.response

/-- An HTTP/3 turn goes on to other URLs and sends at most one request, to a URL the
policy let in and that is new. -/
inductive Http3Turn (c : Core) : Core → Prop
  | silent (current : String) (visited : List String) : Http3Turn c {c with current, visited}
  | sent (url current : String) (previous : Option String) (redirectStatuses : List Nat)
      (haccepted : a.policy.Accepts h.addresses c.current c.previous url) (hfresh : url ∉ c.visited) :
      Http3Turn c {c with
        current, previous, visited := url :: c.visited, redirectStatuses
        sent := c.sent ++ [postedHttp3 a h {c with current := url}]}

/-- An HTTP/3 turn that goes on: the answer is a redirect. -/
inductive Http3Redirected (c : Core) : Core → Prop
  | intro (url current : String) (result : Http3Response)
      (haccepted : a.policy.Accepts h.addresses c.current c.previous url) (hfresh : url ∉ c.visited)
      (hreply : h.http3 = .ok result) (hstatus : 300 ≤ result.status ∧ result.status ≤ 399) :
      Http3Redirected c {c with
        current, previous := some url, visited := url :: c.visited
        redirectStatuses := c.redirectStatuses ++ [result.status]
        sent := c.sent ++ [postedHttp3 a h {c with current := url}]}

theorem Http3Turn.unchanged (c : Core) : Http3Turn a h c c := .silent c.current c.visited

theorem enterHttp3_meets (s : Exchange) :
    (enterHttp3 a).Meets s
      (fun _ s' => s'.robotsSent = s.robotsSent ∧ s.current ∉ s.visited ∧
        s'.core = {s.core with visited := s.current :: s.visited})
      fun _ s' => s'.robotsSent = s.robotsSent ∧ ∃ visited, s'.core = {s.core with visited} := by
  simp only [enterHttp3, splitUrl, meets_bind, meets_get, meets_when, meets_raise, meets_check, meets_modify,
    meets_ofOption]
  refine ⟨fun _ => ?_, fun _ => ⟨fun parts _ => ⟨fun _ => ⟨fun hfresh => ⟨fun _ => ⟨trivial, ?_, rfl⟩,
    fun _ => ⟨trivial, _, rfl⟩⟩, fun _ => ⟨trivial, s.visited, rfl⟩⟩, fun _ => ⟨trivial, s.visited, rfl⟩⟩,
      fun _ => ⟨trivial, s.visited, rfl⟩⟩⟩
  · exact (Keeps.recordOutcome _ _ _ _).meets (fun _ _ hcore hrobots => ⟨hrobots, s.visited, hcore⟩)
      fun _ _ hcore hrobots => ⟨hrobots, s.visited, hcore⟩
  · simpa using hfresh

/-- The answer is the last of the call, or a redirect to follow. -/
theorem handleHttp3_meets (result : Http3Response) (s : Exchange) :
    (handleHttp3 a result).Meets s
      (fun r s' => s'.robotsSent = s.robotsSent ∧
        ((r.isSome ∧ s'.core = s.core) ∨ r = none ∧ (300 ≤ result.status ∧ result.status ≤ 399) ∧ ∃ current,
          s'.core = {s.core with
            current, previous := some s.current, redirectStatuses := s.redirectStatuses ++ [result.status]}))
      fun _ s' => s'.robotsSent = s.robotsSent ∧ ∃ redirectStatuses, s'.core = {s.core with redirectStatuses} := by
  simp only [handleHttp3, meets_bind, meets_get, meets_modify, meets_check, meets_ite, meets_ofOption, meets_raise,
    meets_pure]
  have hsame : ∃ redirectStatuses, s.core = {s.core with redirectStatuses} := ⟨s.redirectStatuses, rfl⟩
  refine ⟨fun _ => ⟨fun hstatus => ⟨fun _ => ⟨fun joined _ => ⟨trivial, .inr ⟨trivial, ?_, _, rfl⟩⟩,
    fun _ => ⟨trivial, _, rfl⟩⟩, fun _ => ⟨trivial, _, rfl⟩⟩, fun _ => ⟨fun _ => ⟨trivial, hsame⟩, fun _ =>
      ⟨fun _ => ⟨trivial, hsame⟩, fun _ => ⟨fun _ => ⟨trivial, hsame⟩, fun _ => ⟨trivial, .inl ⟨rfl, rfl⟩⟩⟩⟩⟩⟩,
    fun _ => ⟨trivial, hsame⟩⟩
  simp only [List.contains_eq_mem, List.mem_cons, List.not_mem_nil, or_false, decide_eq_true_eq] at hstatus
  omega

theorem hopHttp3_meets (s : Exchange) :
    (hopHttp3 a h).Meets s
      (fun r s' => s'.robotsSent = s.robotsSent ∧ Http3Turn a h s.core s'.core ∧
        (r = none → Http3Redirected a h s.core s'.core))
      fun _ s' => s'.robotsSent = s.robotsSent ∧ Http3Turn a h s.core s'.core := by
  rw [hopHttp3, meets_bind]
  refine (takeSlot_keeps a h).meets ?_ fun _ t ht ht' => ⟨ht', ht ▸ .unchanged a h _⟩
  intro _ t htcore htrobots
  rw [← htcore, ← htrobots, meets_bind]
  refine (evaluateCurrent_meets a h t).mono ?_ fun _ u hu => hu ▸ ⟨rfl, .unchanged a h _⟩
  rintro _ u ⟨hurobots, url, haccepted, hucore⟩
  rw [← hurobots, meets_bind]
  refine (enterHttp3_meets a u).mono ?_ ?_
  · rintro _ v ⟨hvrobots, hfresh, hvcore⟩
    have hurl : u.current = url := congrArg Core.current hucore
    have hseen : u.visited = t.visited := congrArg Core.visited hucore
    rw [hurl, hseen] at hfresh
    rw [hucore, hurl, hseen] at hvcore
    have hsilent : Http3Turn a h t.core v.core := hvcore ▸ .silent url _
    rw [← hvrobots, meets_bind]
    refine (recordRateLimit_keeps a).meets ?_ fun _ w hw hw' => ⟨hw', hw ▸ hsilent⟩
    intro _ w hwcore hwrobots
    rw [← hwcore] at hsilent hvcore
    rw [← hwrobots]
    simp only [meets_bind, meets_get, meets_check]
    refine ⟨fun _ => ?_, fun _ => ⟨trivial, hsilent⟩⟩
    refine (Keeps.withinDeadline _).meets ?_ fun _ x hx hx' => ⟨hx', hx ▸ hsilent⟩
    intro _ x hxcore hxrobots
    rw [← hxcore] at hvcore
    have hposted : postedHttp3 a h x.core = postedHttp3 a h {t.core with current := url} := by
      rw [hvcore]
      rfl
    have hlog : x.sent = t.core.sent := congrArg Core.sent hvcore
    have hstatuses : x.redirectStatuses = t.core.redirectStatuses := congrArg Core.redirectStatuses hvcore
    have hxurl : x.current = url := congrArg Core.current hvcore
    have hsent : ∀ {y : Exchange} (current : String) (previous : Option String) (redirectStatuses : List Nat),
        y.core = {x.core with current, previous, redirectStatuses, sent := x.sent ++ [postedHttp3 a h x.core]} →
        y.core = {t.core with
          current, previous, visited := url :: t.visited, redirectStatuses
          sent := t.core.sent ++ [postedHttp3 a h {t.core with current := url}]} := by
      intro y current previous redirectStatuses hy
      rw [hy, hposted, hlog, hvcore]
    have hturn : ∀ {y : Exchange} (current : String) (previous : Option String) (redirectStatuses : List Nat),
        y.core = {x.core with current, previous, redirectStatuses, sent := x.sent ++ [postedHttp3 a h x.core]} →
        Http3Turn a h t.core y.core := fun current previous redirectStatuses hy =>
      hsent current previous redirectStatuses hy ▸ .sent url current previous redirectStatuses haccepted hfresh
    rw [sendHttp3]
    simp only [meets_bind, meets_modify, meets_ofExcept]
    refine ⟨fun result hreply => (handleHttp3_meets a result _).mono ?_ ?_, fun _ _ => ?_⟩
    · rintro r y ⟨hyrobots, ⟨hr, hycore⟩ | ⟨hr, hstatus, current, hycore⟩⟩
      · refine ⟨hyrobots.trans hxrobots, hturn x.current x.previous x.redirectStatuses hycore, fun hnone => ?_⟩
        rw [hnone] at hr
        cases hr
      · refine ⟨hyrobots.trans hxrobots, hturn current _ _ hycore, fun _ => ?_⟩
        have hy := hsent current _ _ hycore
        have hprevious : (some x.current) = some url := congrArg some hxurl
        rw [hy]
        show Http3Redirected a h t.core {t.core with
          current, previous := some x.current, visited := url :: t.visited
          redirectStatuses := x.redirectStatuses ++ [result.status]
          sent := t.core.sent ++ [postedHttp3 a h {t.core with current := url}]}
        rw [hprevious, hstatuses]
        exact .intro url current result haccepted hfresh hreply hstatus
    · rintro _ y ⟨hyrobots, redirectStatuses, hycore⟩
      exact ⟨hyrobots.trans hxrobots, hturn x.current x.previous redirectStatuses hycore⟩
    · exact ⟨hxrobots, hturn x.current x.previous x.redirectStatuses rfl⟩
  · rintro _ v ⟨hvrobots, visited, hvcore⟩
    rw [hvcore, hucore]
    exact ⟨hvrobots, .silent url visited⟩

/-! ### The loop -/

/-- **The rule of the loop**: what every turn preserves, told by the turns taken so far,
until it ends the call holds however the call ends. -/
theorem hops_meets {turn : Hop → HttpM (Option HttpResult)} {I : Nat → Exchange → Prop} {E : Exchange → Prop}
    (world : Nat → Hop) (n : Nat)
    (hturn : ∀ k < n, ∀ s, I k s →
      (turn (world k)).Meets s (fun r s' => if r.isSome then E s' else I (k + 1) s') fun _ s' => E s')
    (hend : ∀ s, I n s → E s) (s : Exchange) (hs : I 0 s) :
    (hops turn n world).Meets s (fun _ s' => E s') fun _ s' => E s' := by
  have hloop : ∀ m k, k + m = n → ∀ s, I k s →
      (hops turn m fun i => world (k + i)).Meets s (fun _ s' => E s') fun _ s' => E s' := by
    intro m
    induction m with
    | zero =>
      intro k hk s hs
      exact hend s (hk ▸ hs)
    | succ m ih =>
      intro k hk s hs
      rw [hops, meets_bind]
      refine (hturn k (by omega) s hs).mono ?_ fun _ _ ht => ht
      intro r t ht
      cases r with
      | some result => exact ht
      | none =>
        have hnext := ih (k + 1) (by omega) t ht
        simp only [Nat.add_assoc, Nat.add_comm 1] at hnext
        exact hnext
  have hall := hloop n 0 (Nat.zero_add n) s hs
  simp only [Nat.zero_add] at hall
  exact hall

/-- **The rule of the loop, for what it returns.** -/
theorem hops_after {turn : Hop → HttpM (Option HttpResult)} {I : Nat → Exchange → Prop} {Q : HttpResult → Exchange → Prop}
    (hop : Nat → Hop) (hturn : ∀ k s, I k s → (turn (hop k)).After s fun r t =>
      (r = none → I (k + 1) t) ∧ ∀ result, r = some result → Q result t) (n k : Nat) (s : Exchange) (hs : I k s) :
    (hops turn n fun i => hop (k + i)).After s Q := by
  unfold After
  induction n generalizing k s with
  | zero => trivial
  | succ n ih =>
    rw [hops, meets_bind]
    refine (hturn k s hs).mono ?_ fun _ _ _ => trivial
    rintro r t ⟨hnext, hresult⟩
    cases r with
    | some result => exact hresult result rfl
    | none =>
      have hrest := ih (k + 1) t (hnext rfl)
      simp only [Nat.add_assoc, Nat.add_comm 1] at hrest
      exact hrest

/-! ### The call -/

/-- The core when the client opens. -/
def opened (ctx : ExecutionContext) (validated : ValidatedAddresses) (method : String) (headers : Dict String String) :
    Core :=
  {(Exchange.initial ctx validated call).core with
    method, headers, client := clientHeaders a headers, requestBody := call.body}

theorem prepare_meets (ctx : ExecutionContext) (validated : ValidatedAddresses) (elapsed : ℚ) :
    (prepare a call elapsed).Meets (.initial ctx validated call)
      (fun _ s' => s'.robotsSent = [] ∧ ∃ method headers, initialRequest a call ctx = .ok (method, headers) ∧
        (isSafeMethod method = true → call.body = none) ∧ s'.core = opened a call ctx validated method headers)
      fun _ s' => s' = .initial ctx validated call := by
  simp only [prepare, withinDeadline, meets_bind, meets_get, meets_check, meets_ofExcept, meets_modify]
  refine ⟨fun _ => ⟨fun _ => ⟨?_, fun _ _ => trivial⟩, fun _ => trivial⟩, fun _ => trivial⟩
  rintro ⟨method, headers⟩ hrequest
  refine ⟨fun hbody => ⟨fun _ => ⟨rfl, method, headers, hrequest, fun hsafe => ?_, rfl⟩, fun _ => trivial⟩,
    fun _ => trivial⟩
  rw [isSafeMethod] at hsafe
  simpa [hsafe] using hbody

theorem prepareHttp3_meets (ctx : ExecutionContext) (validated : ValidatedAddresses) :
    (prepareHttp3 call).Meets (.initial ctx validated call)
      (fun _ s' => s'.robotsSent = [] ∧ s'.core = (Exchange.initial ctx validated call).core)
      fun _ s' => s' = .initial ctx validated call := by
  simp only [prepareHttp3, meets_bind, meets_get, meets_check, meets_modify]
  exact ⟨fun _ => ⟨fun _ => ⟨rfl, rfl⟩, fun _ => trivial⟩, fun _ => trivial⟩

/-- **The rule of a call**: an invariant of the turns for each of the two transports,
and what both of them imply however the call ends. -/
theorem request_meets (world : World) (ctx : ExecutionContext) (validated : ValidatedAddresses)
    {I J : Nat → Exchange → Prop} {E : Exchange → Prop} (hstart : E (.initial ctx validated call))
    (hopen : ctx.request.outputRequirements.contains "http_3" = false →
      (call.allowEphemeralLoginCookies = true → call.credentialMode = .anonymous) →
      ∀ s method headers, initialRequest a call ctx = .ok (method, headers) →
        (isSafeMethod method = true → call.body = none) → s.robotsSent = [] →
        s.core = opened a call ctx validated method headers → I 0 s)
    (hturn : ∀ k < turns ctx, ∀ s, I k s →
      (hop a call (world.hop k)).Meets s (fun r s' => if r.isSome then E s' else I (k + 1) s') fun _ s' => E s')
    (hend : ∀ s, I (turns ctx) s → E s)
    (hopen3 : ctx.request.outputRequirements.contains "http_3" = true →
      call.allowEphemeralLoginCookies = false → ∀ s, s.robotsSent = [] →
      s.core = (Exchange.initial ctx validated call).core → J 0 s)
    (hturn3 : ∀ k < turns ctx, ∀ s, J k s →
      (hopHttp3 a (world.hop k)).Meets s (fun r s' => if r.isSome then E s' else J (k + 1) s') fun _ s' => E s')
    (hend3 : ∀ s, J (turns ctx) s → E s) : E (exchange a call world ctx validated) := by
  refine Meets.state ?_
  simp only [request, meets_bind, meets_check, meets_get]
  refine ⟨fun hmode => ?_, fun _ => hstart⟩
  have hanonymous : call.allowEphemeralLoginCookies = true → call.credentialMode = .anonymous := by
    intro hallowed
    simpa [hallowed] using hmode
  rw [meets_ite]
  refine ⟨fun hhttp3 => ?_, fun hhttp => ?_⟩
  · simp only [meets_bind, meets_check]
    refine ⟨fun hdisabled => ?_, fun _ => hstart⟩
    refine (prepareHttp3_meets call ctx validated).mono ?_ fun _ _ ht => ht ▸ hstart
    rintro _ t ⟨hrobots, hcore⟩
    exact hops_meets world.hop (turns ctx) hturn3 hend3 t (hopen3 hhttp3 (by simpa using hdisabled) t hrobots hcore)
  · rw [meets_bind]
    refine (prepare_meets a call ctx validated world.elapsed).mono ?_ fun _ _ ht => ht ▸ hstart
    rintro _ t ⟨hrobots, method, headers, hrequest, hbody, hcore⟩
    exact hops_meets world.hop (turns ctx) hturn hend t
      (hopen (Bool.eq_false_iff.mpr hhttp) hanonymous t method headers hrequest hbody hrobots hcore)

end Fetech.Http
