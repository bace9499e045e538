import Fetech.Http.Turns

/-! The way a call takes: the URLs it requests, in order.

Between the turns of the loop (`Route`) the previous URL is that of the last request
answered with a redirect, every URL requested has been entered, and no body is left once
something was sent. A refreshed credential takes its URL out of the entered ones, which
is how one URL can be requested a second time, and only one. -/
namespace Fetech.Http
open Lib Lib.Url Lib.Program

/-! ### The log of a call -/

/-- The request was answered with a redirect. -/
def Sent.isRedirected (x : Sent) : Bool :=
  match x.reply with
  | .ok response => 300 ≤ response.status ∧ response.status ≤ 399
  | .error _ => false

/-- The request was answered with a 401. -/
def Sent.isUnauthorized (x : Sent) : Bool :=
  match x.reply with
  | .ok response => response.status = 401
  | .error _ => false

/-- The previous hop: the last request that was answered with a redirect. -/
def previousUrl (sent : List Sent) : Option String := (sent.filter (·.isRedirected)).getLast?.map (·.url)

variable (a : HttpAdapter) (call : HttpCall) (world : World)

/-- The policy let the URL in after the previous hop, on the turn of the request. -/
def LetIn (before : List Sent) (x : Sent) : Prop :=
  ∃ target, a.policy.Accepts (world.hop before.length).addresses target (previousUrl before) x.url

/-- A body goes to the destination of the call, with its first request. -/
def BodyKept (before : List Sent) (x : Sent) : Prop :=
  x.body ≠ none → before = [] ∧ normalizeUrl a.codecs call.destination = some x.url

/-- No URL is requested twice; or a credential was refreshed, and the one URL that
answered 401 then is requested once more. -/
inductive Distinct (refreshes : List Refresh) : List Sent → Prop
  | all (sent : List Sent) (hnodup : (sent.map (·.url)).Nodup) : Distinct refreshes sent
  | retried (before after : List Sent) (x : Sent) (hrefreshed : refreshes ≠ []) (hanswer : x.isUnauthorized = true)
      (hnodup : ((before ++ after).map (·.url)).Nodup) (hfirst : x.url ∉ before.map (·.url)) :
      Distinct refreshes (before ++ x :: after)

/-- What holds of the requests of a call at any time. -/
structure Lawful (refreshes : List Refresh) (sent : List Sent) : Prop where
  letIn : ∀ before x after, sent = before ++ x :: after → LetIn a world before x
  body : ∀ before x after, sent = before ++ x :: after → BodyKept a call before x
  secure : sent.Pairwise fun x y => SafeUrlPolicy.IsHttps a.codecs x.url → SafeUrlPolicy.IsHttps a.codecs y.url
  distinct : Distinct refreshes sent

/-- A property of every request and of those before it, one request on. -/
theorem split_snoc {P : List Sent → Sent → Prop} {sent : List Sent} {last : Sent}
    (h : ∀ before x after, sent = before ++ x :: after → P before x) (hlast : P sent last) :
    ∀ before x after, sent ++ [last] = before ++ x :: after → P before x := by
  intro before x after hsplit
  rcases List.eq_nil_or_concat after with rfl | ⟨after', last', rfl⟩
  · obtain ⟨rfl, hx⟩ := List.append_inj' hsplit rfl
    cases hx
    exact hlast
  · rw [List.concat_eq_append, ← List.cons_append, ← List.append_assoc] at hsplit
    obtain ⟨hsent, -⟩ := List.append_inj' hsplit rfl
    exact h before x after' hsent

/-! ### Between the turns -/

/-- Every URL requested has been entered, but for one whose credential was refreshed. -/
inductive Entered (visited : List String) (attempted : Bool) : List Sent → Prop
  | all (sent : List Sent) (hnodup : (sent.map (·.url)).Nodup) (hvisited : ∀ x ∈ sent, x.url ∈ visited) :
      Entered visited attempted sent
  | retried (before after : List Sent) (x : Sent) (hanswer : x.isUnauthorized = true) (hattempted : attempted = true)
      (hnodup : ((before ++ after).map (·.url)).Nodup) (hfirst : x.url ∉ before.map (·.url))
      (hvisited : ∀ y ∈ before ++ after, y.url ∈ visited) : Entered visited attempted (before ++ x :: after)

theorem Entered.distinct {visited : List String} {attempted : Bool} {sent : List Sent} {refreshes : List Refresh}
    (h : Entered visited attempted sent) (hasked : attempted = true → refreshes ≠ []) : Distinct refreshes sent := by
  cases h with
  | all _ hnodup => exact .all _ hnodup
  | retried before after x hanswer hattempted hnodup hfirst =>
    exact .retried before after x (hasked hattempted) hanswer hnodup hfirst

/-- A refresh more leaves the requests as they are. -/
theorem Lawful.stopped {c c' : Core} (h : Lawful a call world c.refreshes c.sent) (hstopped : Stopped c c') :
    Lawful a call world c'.refreshes c'.sent := by
  rw [hstopped.sent]
  refine ⟨h.letIn, h.body, h.secure, ?_⟩
  rcases hstopped.refreshes with heq | ⟨-, x, existing, -, hgrown⟩
  · rw [heq]
    exact h.distinct
  · rw [hgrown]
    have hdistinct := h.distinct
    generalize c.sent = sent at hdistinct
    cases hdistinct with
    | all _ hnodup => exact .all _ hnodup
    | retried before after y _ hanswer hnodup hfirst => exact .retried before after y (by simp) hanswer hnodup hfirst

theorem nodup_snoc {sent : List Sent} {x : Sent} {visited : List String} (h : (sent.map (·.url)).Nodup)
    (hvisited : ∀ y ∈ sent, y.url ∈ visited) (hfresh : x.url ∉ visited) : ((sent ++ [x]).map (·.url)).Nodup := by
  rw [List.map_append]
  refine h.append (List.nodup_singleton _) fun url hold hnew => ?_
  obtain ⟨y, hy, rfl⟩ := List.mem_map.mp hold
  rw [List.map_singleton, List.mem_singleton] at hnew
  exact hfresh (hnew ▸ hvisited y hy)

/-- A request to a URL that had not been entered. -/
theorem Entered.snoc {visited : List String} {attempted : Bool} {sent : List Sent} {x : Sent}
    (h : Entered visited attempted sent) (hfresh : x.url ∉ visited) :
    Entered (x.url :: visited) attempted (sent ++ [x]) := by
  have hentered : ∀ {ys : List Sent}, (∀ y ∈ ys, y.url ∈ visited) → ∀ y ∈ ys ++ [x], y.url ∈ x.url :: visited := by
    intro ys hys y hy
    rcases List.mem_append.mp hy with hold | hnew
    · exact List.mem_cons_of_mem _ (hys y hold)
    · rw [List.mem_singleton.mp hnew]
      exact List.mem_cons_self
  cases h with
  | all _ hnodup hvisited => exact .all _ (nodup_snoc hnodup hvisited hfresh) (hentered hvisited)
  | retried before after y hanswer hattempted hnodup hfirst hvisited =>
    rw [List.append_assoc, List.cons_append]
    refine .retried before (after ++ [x]) y hanswer hattempted ?_ hfirst ?_
    · rw [← List.append_assoc]
      exact nodup_snoc hnodup hvisited hfresh
    · rw [← List.append_assoc]
      exact hentered hvisited

/-- With a refreshed credential the last URL may be entered once more. -/
theorem Entered.retry {visited : List String} {sent : List Sent} {x : Sent}
    (h : Entered visited false (sent ++ [x])) (hanswer : x.isUnauthorized = true) :
    Entered (visited.filter (· ≠ x.url)) true (sent ++ [x]) := by
  obtain ⟨hnodup, hvisited⟩ : ((sent ++ [x]).map (·.url)).Nodup ∧ ∀ y ∈ sent ++ [x], y.url ∈ visited := by
    generalize hall : sent ++ [x] = all at h
    cases h with
    | all _ hnodup hvisited => exact ⟨hnodup, hvisited⟩
    | retried _ _ _ _ hattempted => cases hattempted
  rw [List.map_append, List.nodup_append] at hnodup
  obtain ⟨hsent, -, hapart⟩ := hnodup
  have hnew : ∀ y ∈ sent, y.url ≠ x.url := fun y hy =>
    hapart y.url (List.mem_map_of_mem hy) x.url (by simp)
  refine .retried sent [] x hanswer rfl (by simpa using hsent) ?_ ?_
  · intro hmem
    obtain ⟨y, hy, heq⟩ := List.mem_map.mp hmem
    exact hnew y hy heq
  · intro y hy
    rw [List.append_nil] at hy
    exact List.mem_filter.mpr ⟨hvisited y (List.mem_append_left _ hy), by simpa using hnew y hy⟩

theorem Entered.mono {visited : List String} {attempted attempted' : Bool} {sent : List Sent}
    (h : Entered visited attempted sent) (hattempted : attempted = true → attempted' = true) :
    Entered visited attempted' sent := by
  cases h with
  | all _ hnodup hvisited => exact .all _ hnodup hvisited
  | retried before after x hanswer htrue hnodup hfirst hvisited =>
    exact .retried before after x hanswer (hattempted htrue) hnodup hfirst hvisited

/-- What holds of a call between two turns. -/
structure Route (c : Core) : Prop where
  letIn : ∀ before x after, c.sent = before ++ x :: after → LetIn a world before x
  body : ∀ before x after, c.sent = before ++ x :: after → BodyKept a call before x
  secure : c.sent.Pairwise fun x y => SafeUrlPolicy.IsHttps a.codecs x.url → SafeUrlPolicy.IsHttps a.codecs y.url
  entered : Entered c.visited c.refreshAttempted c.sent
  asked : c.refreshAttempted = true → c.refreshes ≠ []
  previous : c.previous = previousUrl c.sent
  start : c.sent = [] → c.current = call.destination
  spent : c.sent ≠ [] → c.requestBody = none
  safe : isSafeMethod c.method = true → c.requestBody = none
  -- The next URL is checked against the previous one, or is the last one again.
  following : ∀ x ∈ c.sent, SafeUrlPolicy.IsHttps a.codecs x.url →
    (∃ previous, c.previous = some previous ∧ SafeUrlPolicy.IsHttps a.codecs previous) ∨
      SafeUrlPolicy.IsHttps a.codecs c.current ∧ ∃ target, normalizeUrl a.codecs target = some c.current

theorem Route.lawful {c : Core} (hs : Route a call world c) : Lawful a call world c.refreshes c.sent :=
  ⟨hs.letIn, hs.body, hs.secure, hs.entered.distinct hs.asked⟩

/-- What a turn adds to the log. -/
structure Posts (k : Nat) (c c' : Core) (x : Sent) : Prop where
  turn : c.sent.length = k
  accepted : a.policy.Accepts (world.hop k).addresses c.current c.previous x.url
  fresh : x.url ∉ c.visited
  body : x.body ≠ none → x.body = c.requestBody
  sent : c'.sent = c.sent ++ [x]
  visited : c'.visited = x.url :: c.visited
  attempted : c.refreshAttempted = true → c'.refreshAttempted = true
  refreshes : c'.refreshAttempted = c.refreshAttempted ∧ c'.refreshes = c.refreshes ∨ c'.refreshes ≠ []

section
variable {a call world} {k : Nat} {c c' c'' : Core} {x : Sent}

theorem Route.entered_posts (hs : Route a call world c) (hx : Posts a world k c c' x) :
    Entered c'.visited c'.refreshAttempted c'.sent := by
  rw [hx.sent, hx.visited]
  exact (hs.entered.snoc hx.fresh).mono hx.attempted

theorem Route.asked_posts (hs : Route a call world c) (hx : Posts a world k c c' x) :
    c'.refreshAttempted = true → c'.refreshes ≠ [] := by
  intro hattempted
  rcases hx.refreshes with ⟨hsame, hrefreshes⟩ | hrefreshes
  · rw [hrefreshes]
    exact hs.asked (hsame.symm.trans hattempted)
  · exact hrefreshes

/-- Scheme `https` is kept by the next request. -/
theorem Route.secure_posts (hs : Route a call world c) (hx : Posts a world k c c' x) :
    c'.sent.Pairwise fun y z => SafeUrlPolicy.IsHttps a.codecs y.url → SafeUrlPolicy.IsHttps a.codecs z.url := by
  rw [hx.sent]
  refine List.pairwise_append.mpr ⟨hs.secure, List.pairwise_singleton _ _, fun y hy z hz hhttps => ?_⟩
  rw [List.mem_singleton.mp hz]
  rcases hs.following y hy hhttps with ⟨previous, hprevious, hbefore⟩ | ⟨hcurrent, target, hnormal⟩
  · have haccepted := hx.accepted
    rw [hprevious] at haccepted
    exact haccepted.https hbefore
  · exact hx.accepted.keeps_https hnormal hcurrent

/-- With one more request everything sent is as it should be. -/
theorem Route.posts (hs : Route a call world c) (hx : Posts a world k c c' x) :
    Lawful a call world c'.refreshes c'.sent where
  letIn := by
    rw [hx.sent]
    refine split_snoc hs.letIn ⟨c.current, ?_⟩
    rw [← hs.previous, hx.turn]
    exact hx.accepted
  body := by
    rw [hx.sent]
    refine split_snoc hs.body fun hbody => ?_
    have hnone : c.requestBody ≠ none := fun heq => hbody ((hx.body hbody).trans heq)
    have hempty : c.sent = [] := by
      by_contra hsent
      exact hnone (hs.spent hsent)
    refine ⟨hempty, ?_⟩
    rw [← hs.start hempty]
    exact hx.accepted.normalized
  secure := hs.secure_posts hx
  distinct := (hs.entered_posts hx).distinct (hs.asked_posts hx)

theorem previousUrl_redirected {sent : List Sent} (h : x.isRedirected = true) :
    previousUrl (sent ++ [x]) = some x.url := by
  simp [previousUrl, List.filter_append, h]

theorem previousUrl_other {sent : List Sent} (h : x.isRedirected = false) :
    previousUrl (sent ++ [x]) = previousUrl sent := by
  simp [previousUrl, List.filter_append, h]

/-- A redirect is followed without a body. -/
theorem Route.redirected (hs : Route a call world c) (hx : Posts a world k c c' x) (hanswer : x.isRedirected = true)
    (hsent : c''.sent = c'.sent) (hvisited : c''.visited = c'.visited)
    (hattempted : c''.refreshAttempted = c'.refreshAttempted) (hrefreshes : c''.refreshes = c'.refreshes)
    (hprevious : c''.previous = some x.url) (hbody : c''.requestBody = none) : Route a call world c'' := by
  obtain ⟨hletIn, hbodies, hsecure, -⟩ := hs.posts hx
  have hentered := hs.entered_posts hx
  rw [← hsent] at hletIn hbodies hsecure hentered
  rw [← hvisited, ← hattempted] at hentered
  have hasked := hs.asked_posts hx
  rw [← hattempted, ← hrefreshes] at hasked
  refine ⟨hletIn, hbodies, hsecure, hentered, hasked, ?_, ?_, fun _ => hbody, fun _ => hbody, fun y hy hhttps => .inl ?_⟩
  · rw [hprevious, hsent, hx.sent, previousUrl_redirected hanswer]
  · intro hempty
    rw [hsent, hx.sent] at hempty
    simp at hempty
  · refine ⟨x.url, hprevious, ?_⟩
    rw [hsent, hx.sent] at hy hsecure
    rcases List.mem_append.mp hy with hold | hnew
    · exact (List.pairwise_append.mp hsecure).2.2 y hold x (List.mem_singleton_self x) hhttps
    · rwa [List.mem_singleton.mp hnew] at hhttps

/-- A refreshed credential is tried at the URL that rejected the old one. -/
theorem Route.refreshed (hs : Route a call world c) (hx : Posts a world k c c' x) (hanswer : x.isUnauthorized = true)
    (hunattempted : c'.refreshAttempted = false) (hsent : c''.sent = c'.sent)
    (hvisited : c''.visited = c'.visited.filter (· ≠ x.url)) (hattempted : c''.refreshAttempted = true)
    (hrefreshes : c''.refreshes ≠ []) (hprevious : c''.previous = c.previous) (hcurrent : c''.current = x.url) (hbody : c''.requestBody = none) :
    Route a call world c'' := by
  obtain ⟨hletIn, hbodies, hsecure, -⟩ := hs.posts hx
  have hentered := hs.entered_posts hx
  have hother : x.isRedirected = false := by
    unfold Sent.isUnauthorized at hanswer
    unfold Sent.isRedirected
    split
    · rename_i response hreply
      simp only [hreply, decide_eq_true_eq] at hanswer
      simp [hanswer]
    · rfl
  rw [hunattempted, hx.sent] at hentered
  have hretried := hentered.retry hanswer
  rw [← hvisited, ← hattempted, ← hx.sent, ← hsent] at hretried
  rw [← hsent] at hletIn hbodies hsecure
  refine ⟨hletIn, hbodies, hsecure, hretried, fun _ => hrefreshes, ?_, ?_, fun _ => hbody, fun _ => hbody, fun y hy hhttps => .inr ?_⟩
  · rw [hprevious, hsent, hx.sent, previousUrl_other hother]
    exact hs.previous
  · intro hempty
    rw [hsent, hx.sent] at hempty
    simp at hempty
  · rw [hcurrent]
    refine ⟨?_, c.current, hx.accepted.normalized⟩
    rw [hsent, hx.sent] at hy hsecure
    rcases List.mem_append.mp hy with hold | hnew
    · exact (List.pairwise_append.mp hsecure).2.2 y hold x (List.mem_singleton_self x) hhttps
    · rwa [List.mem_singleton.mp hnew] at hhttps

/-! ### The turns -/

theorem Requested.posts {h : Hop} (hh : h = world.hop k) (hk : c.sent.length = k) (hrequested : Requested a call h c c') :
    ∃ x, Posts a world k c c' x ∧ x.reply = h.reply ∧ x.body = c.requestBody ∧ x.url = c'.current ∧
      c'.previous = c.previous ∧ c'.method = c.method ∧ c'.requestBody = c.requestBody := by
  obtain ⟨c₁, headers, cookies, hprepared, -⟩ := hrequested
  have hkept := hprepared.kept'
  refine ⟨posted c₁ headers cookies h.reply, ⟨hk, hh ▸ hkept.accepted, hkept.fresh, fun _ => hkept.body, ?_, hkept.visited,
    hkept.attempted, hkept.refreshes⟩, rfl, hkept.body, rfl, hkept.previous, hkept.method, hkept.body⟩
  rw [← hkept.sent]
  rfl

/-- After an answer that does not end the call. -/
theorem Route.answered {h : Hop} {response : Response} (hs : Route a call world c) (hh : h = world.hop k)
    (hk : c.sent.length = k) (hrequested : Requested a call h c c') (hreply : h.reply = .ok response)
    (hanswered : Answered a call h c' response none c'') : Route a call world c'' := by
  obtain ⟨x, hx, hxreply, -, hurl, hprevious, hmethod, hbody⟩ := hrequested.posts hh hk
  rw [hreply] at hxreply
  cases hanswered with
  | redirected _ hstatus hredirected =>
    obtain ⟨redirected, cookies, cookieOrigin, hdropped, -⟩ := hredirected
    have hredirect : x.isRedirected = true := by
      simp only [Sent.isRedirected, hxreply]
      exact decide_eq_true hstatus
    obtain ⟨-, -, -, -, hattempted, hrefreshes, hsent⟩ := switched_kept response.status
      {c' with redirectStatuses := c'.redirectStatuses ++ [response.status]}
    refine hs.redirected hx hredirect hsent ?_ hattempted hrefreshes ?_ hdropped
    · unfold switched
      split <;> rfl
    · exact congrArg some hurl.symm
  | refreshed m m' y hstatus _ hattempted hasked =>
    have hunauthorized : x.isUnauthorized = true := by
      simp only [Sent.isUnauthorized, hxreply, hstatus, decide_true]
    have hsafe : isSafeMethod c.method = true := by
      rw [← hmethod, ← hasked.method]
      exact hasked.safe
    refine hs.refreshed hx hunauthorized hattempted rfl ?_ rfl (by simp [adopt]) hprevious hurl.symm ?_
    · rw [hurl]
    · exact hbody.trans (hs.safe hsafe)

/-- A turn that raised leaves the log as it should be. -/
theorem Route.failed {h : Hop} (hs : Route a call world c) (hh : h = world.hop k) (hk : c.sent.length = k)
    (hfailed : Failed a call h c c') :
    Lawful a call world c'.refreshes c'.sent ∧ c'.sent.length ≤ c.sent.length + 1 := by
  cases hfailed with
  | early url _ hstopped =>
    refine ⟨Lawful.stopped a call world hs.lawful ⟨hstopped.sent, hstopped.secrets, ?_⟩, ?_⟩
    · rcases hstopped.refreshes with heq | ⟨hattempted, y, existing, hasked, hgrown⟩
      · exact .inl heq
      · exact .inr ⟨hattempted, y, existing, hasked.of_eq rfl rfl rfl, hgrown⟩
    · rw [hstopped.sent]
      exact Nat.le_succ _
  | arrived c₁ visited cookies cookieOrigin harrived =>
    obtain ⟨url, _, -, hsettled⟩ := harrived
    obtain ⟨-, -, -, -, -, -, -, hsent, -, -, hrefreshes⟩ := hsettled.fields
    show Lawful a call world c₁.refreshes c₁.sent ∧ c₁.sent.length ≤ _
    rw [hsent]
    refine ⟨⟨hs.letIn, hs.body, hs.secure, hs.entered.distinct fun hattempted => ?_⟩, Nat.le_succ _⟩
    rcases hrefreshes with ⟨-, heq⟩ | hne
    · rw [heq]
      exact hs.asked hattempted
    · exact hne
  | requested c₁ _ hrequested hstopped =>
    obtain ⟨x, hx, -⟩ := hrequested.posts hh hk
    refine ⟨Lawful.stopped a call world (hs.posts hx) hstopped, ?_⟩
    rw [hstopped.sent]
    simp [hx.sent]

theorem Posts.http3 {h : Hop} (hh : h = world.hop k) (hk : c.sent.length = k) {url : String} (c' : Core)
    (haccepted : a.policy.Accepts h.addresses c.current c.previous url) (hfresh : url ∉ c.visited)
    (hsent : c'.sent = c.sent ++ [postedHttp3 a h {c with current := url}]) (hvisited : c'.visited = url :: c.visited)
    (hattempted : c'.refreshAttempted = c.refreshAttempted) (hrefreshes : c'.refreshes = c.refreshes) :
    Posts a world k c c' (postedHttp3 a h {c with current := url}) :=
  ⟨hk, hh ▸ haccepted, hfresh, fun hbody => absurd rfl hbody, hsent, hvisited, fun h => hattempted.trans h,
    .inl ⟨hattempted, hrefreshes⟩⟩

theorem Route.turn3 {h : Hop} (hs : Route a call world c) (hh : h = world.hop k) (hk : c.sent.length = k)
    (hturn : Http3Turn a h c c') :
    Lawful a call world c'.refreshes c'.sent ∧ c'.sent.length ≤ c.sent.length + 1 := by
  cases hturn with
  | silent current visited => exact ⟨hs.lawful, Nat.le_succ _⟩
  | sent url current previous redirectStatuses haccepted hfresh =>
    refine ⟨hs.posts (.http3 hh hk _ haccepted hfresh rfl rfl rfl rfl), ?_⟩
    simp

theorem Route.redirected3 {h : Hop} (hs : Route a call world c) (hh : h = world.hop k) (hk : c.sent.length = k)
    (hnone : c.requestBody = none) (hturn : Http3Redirected a h c c') :
    Route a call world c' ∧ c'.requestBody = none ∧ c'.sent.length = c.sent.length + 1 := by
  obtain ⟨url, current, result, haccepted, hfresh, hreply, hstatus⟩ := hturn
  have hx : Posts a world k c {c with visited := url :: c.visited, sent := c.sent ++ [postedHttp3 a h {c with current := url}]}
      (postedHttp3 a h {c with current := url}) := .http3 hh hk _ haccepted hfresh rfl rfl rfl rfl
  have hredirect : (postedHttp3 a h {c with current := url}).isRedirected = true := by
    simp only [Sent.isRedirected, postedHttp3, hreply, Except.map, Http3Response.response]
    exact decide_eq_true hstatus
  exact ⟨hs.redirected hx hredirect rfl rfl rfl rfl rfl hnone, hnone, by simp⟩

end

/-! ### The call -/

/-- A request for robots is made at an admitted URL, the `robots.txt` of one let in. -/
def RobotsNear (robotsSent : List RobotsSent) : Prop :=
  ∀ r ∈ robotsSent, ∃ k target previous url, a.policy.Accepts (world.hop k).addresses target previous url ∧
    IsRobotsOf a r.url url ∧ a.policy.Admits (world.hop k).addresses r.url

section
variable {a call world} {k : Nat}

theorem RobotsNear.kept {h : Hop} {c : Core} {before after : List RobotsSent} (hh : h = world.hop k)
    (hnear : RobotsNear a world before) (hkept : RobotsKept a h c before after) : RobotsNear a world after := by
  rcases hkept with rfl | ⟨url, target, haccepted, hurl, rfl⟩
  · exact hnear
  · intro r hr
    rcases List.mem_append.mp hr with hold | hnew
    · exact hnear r hold
    · rw [List.mem_singleton] at hnew
      subst hnew
      obtain ⟨parts, hparts, hsite⟩ := hurl
      rw [hh] at haccepted
      have hpath : url = String.ofList parts.scheme ++ "://" ++ String.ofList parts.netloc ++ "/" ++ "robots.txt" := by
        have hcut : "/robots.txt" = "/" ++ "robots.txt" := by decide
        rw [hsite, hcut, ← String.append_assoc]
      exact ⟨k, c.current, c.previous, target, haccepted, ⟨parts, hparts, hsite⟩,
        haccepted.admits.site hparts hpath (by simp)⟩

end

/-- Between two turns, when `k` of them were taken. -/
structure OnRoute (k : Nat) (s : Exchange) : Prop where
  route : Route a call world s.core
  counted : s.sent.length = k
  robots : RobotsNear a world s.robotsSent

/-- What is left behind. -/
structure Routed (limit : Nat) (s : Exchange) : Prop where
  lawful : Lawful a call world s.refreshes s.sent
  counted : s.sent.length ≤ limit
  robots : RobotsNear a world s.robotsSent

section
variable {a call world} {limit k : Nat} {s : Exchange}

theorem OnRoute.routed (hs : OnRoute a call world k s) (hk : k ≤ limit) : Routed a call world limit s :=
  ⟨hs.route.lawful, hs.counted.le.trans hk, hs.robots⟩

theorem OnRoute.hop (hs : OnRoute a call world k s) (hk : k < limit) :
    (hop a call (world.hop k)).Meets s
      (fun r s' => if r.isSome then Routed a call world limit s' else OnRoute a call world (k + 1) s')
      fun _ s' => Routed a call world limit s' := by
  have hcount : s.core.sent.length = k := hs.counted
  refine (hop_meets a call (world.hop k) s).mono ?_ ?_
  · rintro r t ⟨hkept, c', response, hrequested, hreply, hanswered⟩
    have hrobots := hs.robots.kept rfl hkept
    obtain ⟨x, hx, -⟩ := hrequested.posts rfl hcount
    have hlength : c'.sent.length = k + 1 := by
      rw [hx.sent, List.length_append, hcount]
      rfl
    have hsent : t.sent = c'.sent := hanswered.sent
    cases r with
    | some result =>
      cases hanswered
      exact ⟨hs.route.posts hx, by rw [hsent, hlength]; omega, hrobots⟩
    | none => exact ⟨hs.route.answered rfl hcount hrequested hreply hanswered, by rw [hsent, hlength], hrobots⟩
  · rintro _ t ⟨hkept, hfailed⟩
    obtain ⟨hlawful, hlength⟩ := hs.route.failed rfl hcount hfailed
    rw [hcount] at hlength
    exact ⟨hlawful, hlength.trans hk, hs.robots.kept rfl hkept⟩

theorem OnRoute.hop3 (hs : OnRoute a call world k s) (hk : k < limit) (hnone : s.requestBody = none) :
    (hopHttp3 a (world.hop k)).Meets s
      (fun r s' => if r.isSome then Routed a call world limit s'
        else OnRoute a call world (k + 1) s' ∧ s'.requestBody = none)
      fun _ s' => Routed a call world limit s' := by
  have hcount : s.core.sent.length = k := hs.counted
  have hrouted : ∀ {t : Exchange}, t.robotsSent = s.robotsSent → Http3Turn a (world.hop k) s.core t.core →
      Routed a call world limit t := by
    intro t hrobots hturn
    obtain ⟨hlawful, hlength⟩ := hs.route.turn3 rfl hcount hturn
    rw [hcount] at hlength
    exact ⟨hlawful, hlength.trans hk, hrobots ▸ hs.robots⟩
  refine (hopHttp3_meets a (world.hop k) s).mono ?_ fun _ t ht => hrouted ht.1 ht.2
  rintro r t ⟨hrobots, hturn, hredirected⟩
  cases r with
  | some result => exact hrouted hrobots hturn
  | none =>
    obtain ⟨hroute, hbody, hlength⟩ := hs.route.redirected3 rfl hcount hnone (hredirected rfl)
    exact ⟨⟨hroute, hlength.trans (congrArg (· + 1) hcount), hrobots ▸ hs.robots⟩, hbody⟩

end

/-! ### From the start -/

section
variable {a call world} {ctx : ExecutionContext} {validated : ValidatedAddresses} {s : Exchange}

theorem lawful_nil : Lawful a call world [] [] :=
  ⟨fun before x after h => by simp at h, fun before x after h => by simp at h, .nil, .all _ .nil⟩

/-- Nothing was sent yet. -/
theorem Route.unsent {c : Core} (hsent : c.sent = []) (hprevious : c.previous = none) (hcurrent : c.current = call.destination)
    (hunattempted : c.refreshAttempted = false) (hsafe : isSafeMethod c.method = true → c.requestBody = none) :
    Route a call world c := by
  have hnone : ∀ x, x ∉ c.sent := by simp [hsent]
  have hnothing : Lawful a call world [] [] := lawful_nil
  refine ⟨?_, ?_, ?_, ?_, by simp [hunattempted], ?_, fun _ => hcurrent, fun hne => absurd hsent hne, hsafe,
    fun x hx => absurd hx (hnone x)⟩
  · rw [hsent]
    exact hnothing.letIn
  · rw [hsent]
    exact hnothing.body
  · rw [hsent]
    exact .nil
  · rw [hsent]
    exact .all _ .nil (by simp)
  · rw [hsent]
    exact hprevious

/-- A call on its way, with its first request composed. -/
theorem OnRoute.opened {method : String} {headers : Dict String String} (hbody : isSafeMethod method = true → call.body = none)
    (hrobots : s.robotsSent = []) (hcore : s.core = opened a call ctx validated method headers) : OnRoute a call world 0 s := by
  have hsent : s.sent = [] := congrArg Core.sent hcore
  refine ⟨?_, ?_, ?_⟩
  · rw [hcore]
    exact .unsent rfl rfl rfl rfl hbody
  · rw [hsent]
    rfl
  · simp [RobotsNear, hrobots]

theorem OnRoute.opened3 (hrobots : s.robotsSent = []) (hcore : s.core = (Exchange.initial ctx validated call).core) :
    OnRoute a call world 0 s ∧ s.requestBody = none := by
  have hsent : s.sent = [] := congrArg Core.sent hcore
  refine ⟨⟨?_, ?_, ?_⟩, congrArg Core.requestBody hcore⟩
  · rw [hcore]
    exact .unsent rfl rfl rfl rfl fun _ => rfl
  · rw [hsent]
    rfl
  · simp [RobotsNear, hrobots]

end

theorem exchange_routed (a : HttpAdapter) (call : HttpCall) (world : World) (ctx : ExecutionContext)
    (validated : ValidatedAddresses) : Routed a call world (turns ctx) (exchange a call world ctx validated) := by
  apply request_meets a call world ctx validated (I := OnRoute a call world)
    (J := fun k s => OnRoute a call world k s ∧ s.requestBody = none) (E := Routed a call world (turns ctx))
  · exact ⟨lawful_nil, Nat.zero_le _, by simp [RobotsNear, Exchange.initial]⟩
  · intro _ _ s method headers _ hbody hrobots hcore
    exact .opened hbody hrobots hcore
  · exact fun k hk s hs => hs.hop hk
  · exact fun s hs => hs.routed le_rfl
  · intro _ _ s hrobots hcore
    exact OnRoute.opened3 hrobots hcore
  · exact fun k hk s hs => hs.1.hop3 hk hs.2
  · exact fun s hs => hs.1.routed le_rfl

/-- **The way of a call is safe**, whatever the servers, the resolver and the clock
answer. Every URL requested was let in by the policy after the previous hop, in its
normal form; its host is not blocked, its port allowed, and the addresses are public. A
body goes to the destination of the call only, with its first request. After scheme
`https` there is no request over `http`. No URL is requested twice, but for the one that
answered 401 when the credential was refreshed. There are no more requests than the
budget has redirects, and one. Robots are asked for only at the site of such a URL. -/
theorem route_safe (a : HttpAdapter) (call : HttpCall) (world : World) (ctx : ExecutionContext)
    (validated : ValidatedAddresses) :
    (∀ before x after, (exchange a call world ctx validated).sent = before ++ x :: after →
      (∃ target, a.policy.Accepts (world.hop before.length).addresses target (previousUrl before) x.url ∧
        a.policy.Admits (world.hop before.length).addresses x.url) ∧
      (x.body ≠ none → before = [] ∧ normalizeUrl a.codecs call.destination = some x.url)) ∧
    ((exchange a call world ctx validated).sent.Pairwise fun x y =>
      SafeUrlPolicy.IsHttps a.codecs x.url → SafeUrlPolicy.IsHttps a.codecs y.url) ∧
    Distinct (exchange a call world ctx validated).refreshes (exchange a call world ctx validated).sent ∧
    (exchange a call world ctx validated).sent.length ≤ (ctx.request.budget.redirects + 1).toNat ∧
    RobotsNear a world (exchange a call world ctx validated).robotsSent := by
  obtain ⟨⟨hletIn, hbody, hsecure, hdistinct⟩, hcounted, hrobots⟩ := exchange_routed a call world ctx validated
  refine ⟨fun before x after hsplit => ⟨?_, hbody before x after hsplit⟩, hsecure, hdistinct, hcounted, hrobots⟩
  obtain ⟨target, haccepted⟩ := hletIn before x after hsplit
  exact ⟨target, haccepted, haccepted.admits⟩

end Fetech.Http
