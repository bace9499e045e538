import Fetech.Http.Turns

/-! Where the cookies of a form login may go.

A login's cookies are kept in a map whose origin goes with it. The invariant (`Handing`)
says of every cookie in the map which request of the chain it came from, and that
nothing since then has left that request's origin or named the cookie again (`Live`).
A request's cookies are chosen from the map, so the same holds of them
(`login_cookies_justified`). -/
namespace Fetech.Http
open Lib Lib.Url Lib.Program

/-! ### Paths -/

/-- Path-match as in RFC 6265: equal, or the cookie's path is a first part that ends
in a slash or is followed by one. -/
def PathMatches (cookiePath target : List Char) : Prop :=
  target = cookiePath ∨
    ∃ rest, target = cookiePath ++ rest ∧ (cookiePath.getLast? = some '/' ∨ rest.head? = some '/')

theorem pathMatches_of_cookiePathMatches {cookiePath target : List Char}
    (h : cookiePathMatches cookiePath target = true) : PathMatches cookiePath target := by
  unfold cookiePathMatches at h
  split at h
  · rename_i heq
    exact .inl heq
  split at h
  · cases h
  rename_i hstart
  have hfirst : cookiePath <+: target := by simpa using hstart
  obtain ⟨rest, rfl⟩ := hfirst
  refine .inr ⟨rest, rfl, ?_⟩
  simpa [List.head?_eq_getElem?, List.getElem?_append_right (le_refl _)] using h

/-! ### Capture -/

/-- The jar's cookie entered as this one. -/
structure CapturedAs (c : Codecs) (host : List Char) (now : ℚ) (cookie : JarCookie) (ck : EphemeralCookie) : Prop where
  name : ck.name = cookie.name
  value : cookie.value = some ck.value
  path : ck.path = cookie.effectivePath
  secure : cookie.secure = true
  host : cookie.bareDomain c = host
  live : cookie.expiredAt now = false

theorem CapturedAs.key {c : Codecs} {host : List Char} {now : ℚ} {cookie : JarCookie} {ck : EphemeralCookie}
    (h : CapturedAs c host now cookie ck) : cookie.key = (ck.name, ck.path) := by
  rw [JarCookie.key, h.name, h.path]

/-- One cookie: its own key is replaced or dropped, the others stay. -/
theorem captureCookie_eq_ok {c : Codecs} {host : List Char} {now : ℚ} {before after : CookieMap} {cookie : JarCookie}
    {key : String × String} {ck : EphemeralCookie} (hok : captureCookie c host now before cookie = .ok after)
    (hget : after.get? key = some ck) :
    (cookie.key = key ∧ CapturedAs c host now cookie ck) ∨ (cookie.key ≠ key ∧ before.get? key = some ck) := by
  simp only [captureCookie, Except.bind_eq_ok, Except.ofOption_eq_ok, Except.require_eq_ok] at hok
  obtain ⟨value, hvalue, _, haccept, hok⟩ := hok
  simp only [JarCookie.acceptable, Bool.and_eq_true, beq_iff_eq] at haccept
  by_cases hkey : key = cookie.key
  · split at hok
    · cases hok
      simp [hkey] at hget
    · rename_i hlive
      cases hok
      simp only [Dict.get?_set, hkey, if_true, Option.some.injEq] at hget
      subst hget
      exact .inl ⟨hkey.symm, ⟨rfl, hvalue, rfl, haccept.1.1.1.1.1.1.1.1, haccept.1.1.1.1.1.1.1.2, by simpa using hlive⟩⟩
  · refine .inr ⟨Ne.symm hkey, ?_⟩
    split at hok
    · cases hok
      simpa [hkey] using hget
    · cases hok
      simpa [hkey] using hget

/-- The whole jar: what is in the map afterwards was set by the jar's last word on its
key, or was there before and the jar is silent about it. -/
theorem captureCookies_eq_ok {c : Codecs} {host : List Char} {now : ℚ} {jar : List JarCookie} {before after : CookieMap}
    {key : String × String} {ck : EphemeralCookie} (hok : jar.foldlM (captureCookie c host now) before = .ok after)
    (hget : after.get? key = some ck) :
    (∃ former cookie latter, jar = former ++ cookie :: latter ∧ cookie.key = key ∧ CapturedAs c host now cookie ck ∧
      ∀ d ∈ latter, d.key ≠ key) ∨
    (before.get? key = some ck ∧ ∀ d ∈ jar, d.key ≠ key) := by
  induction jar generalizing before with
  | nil =>
    cases hok
    exact .inr ⟨hget, nofun⟩
  | cons cookie rest ih =>
    rw [List.foldlM_cons, Except.bind_eq_ok] at hok
    obtain ⟨middle, hcookie, hrest⟩ := hok
    obtain ⟨former, cookie', latter, hjar, hset⟩ | ⟨hmiddle, huntouched⟩ := ih hrest
    · exact .inl ⟨cookie :: former, cookie', latter, by rw [hjar, List.cons_append], hset⟩
    · obtain ⟨hkey, hcaptured⟩ | ⟨hkey, hbefore⟩ := captureCookie_eq_ok hcookie hmiddle
      · exact .inl ⟨[], cookie, rest, rfl, hkey, hcaptured, huntouched⟩
      · refine .inr ⟨hbefore, fun d hd => ?_⟩
        rcases List.mem_cons.mp hd with rfl | hd
        · exact hkey
        · exact huntouched d hd

/-- What a successful capture leaves in the map, and why. -/
theorem capture_eq_ok {c : Codecs} {now : ℚ} {response : ResponseCookies} {url : String} {existing captured : CookieMap}
    (hok : captureEphemeralLoginCookies c now response url existing = .ok captured) :
    (existing.size ≤ cookieCountLimit → captured.size ≤ cookieCountLimit) ∧
    ∀ key ck, captured.get? key = some ck →
      (existing.get? key = some ck ∧ ∀ d ∈ response.jar, d.key ≠ key) ∨
      ∃ parts host former cookie latter, urlsplit c.toTables url.toList = some parts ∧ parts.scheme = "https".toList ∧
        cookieHost c parts = some host ∧ response.jar = former ++ cookie :: latter ∧ cookie.key = key ∧
        CapturedAs c host now cookie ck ∧ ∀ d ∈ latter, d.key ≠ key := by
  unfold captureEphemeralLoginCookies at hok
  split at hok
  · rename_i hnone
    cases hok
    have hjar : response.jar = [] := response.parsed (by simpa using hnone)
    exact ⟨id, fun key ck hget => .inl ⟨hget, by simp [hjar]⟩⟩
  · simp only [Except.bind_eq_ok, Except.ofOption_eq_ok, Except.require_eq_ok] at hok
    obtain ⟨_, _, _, _, _, _, _, _, parts, hparts, host, hhost, _, hscheme, result, hfold, _, hsize, _, _, _, _,
      hreturn⟩ := hok
    cases hreturn
    simp only [Bool.and_eq_true, decide_eq_true_eq] at hscheme hsize
    refine ⟨fun _ => hsize, fun key ck hget => ?_⟩
    obtain ⟨former, cookie, latter, hjar, hset⟩ | hkept := captureCookies_eq_ok hfold hget
    · exact .inr ⟨parts, host, former, cookie, latter, hparts, hscheme.1, hhost, hjar, hset⟩
    · exact .inl hkept

/-! ### The Cookie header -/

def isCookieHeader (e : String × String) : Bool := sameHeader e.1 "Cookie"

/-- No header of the list is a Cookie header. -/
def NoCookie (headers : List (String × String)) : Prop := ∀ e ∈ headers, isCookieHeader e = false

theorem NoCookie.merge {headers update : List (String × String)} (hheaders : NoCookie headers)
    (hupdate : NoCookie update) : NoCookie (mergeHeaders headers update) := by
  intro e he
  rcases List.mem_append.mp he with he | he
  · exact hheaders e (List.mem_filter.mp he).1
  · exact hupdate e he

theorem NoCookie.erase {headers : Dict String String} (h : NoCookie headers.entries) (name : String) :
    NoCookie (headers.erase name).entries := by
  intro e he
  have hget : (headers.erase name).get? e.1 = some e.2 := (Dict.get?_eq_some_iff _ _ _).mpr he
  rw [Dict.get?_erase] at hget
  split at hget
  · cases hget
  · exact h e ((Dict.get?_eq_some_iff _ _ _).mp hget)

/-- On the wire the Cookie header added to such headers is the only one. -/
theorem NoCookie.filter_set {client : List (String × String)} {headers : Dict String String} (hclient : NoCookie client)
    (hheaders : NoCookie headers.entries) (text : String) :
    (mergeHeaders client (headers.set "Cookie" text).entries).filter isCookieHeader = [("Cookie", text)] := by
  have habsent : headers.get? "Cookie" = none := by
    refine Option.eq_none_iff_forall_not_mem.mpr fun v hv => ?_
    have hcookie := hheaders _ ((Dict.get?_eq_some_iff _ _ _).mp hv)
    simp [isCookieHeader, sameHeader] at hcookie
  have hnone : ∀ l : List (String × String), NoCookie l → l.filter isCookieHeader = [] :=
    fun l hl => List.filter_eq_nil_iff.mpr fun e he => by simp [hl e he]
  have hkept : NoCookie (client.filter fun e =>
      !(headers.entries ++ [("Cookie", text)]).any fun u => sameHeader u.1 e.1) :=
    fun e he => hclient e (List.mem_filter.mp he).1
  rw [Dict.entries_set_of_absent habsent, mergeHeaders, List.filter_append, List.filter_append, hnone _ hkept,
    hnone _ hheaders]
  simp [isCookieHeader, sameHeader]

theorem NoCookie.filter {client : List (String × String)} {headers : Dict String String} (hclient : NoCookie client)
    (hheaders : NoCookie headers.entries) :
    (mergeHeaders client headers.entries).filter isCookieHeader = [] :=
  List.filter_eq_nil_iff.mpr fun e he => by simp [hclient.merge hheaders e he]

theorem NoCookie.set {headers : Dict String String} (h : NoCookie headers.entries) {name : String}
    (hname : sameHeader name "Cookie" = false) (value : String) : NoCookie (headers.set name value).entries := by
  intro e he
  have hget : (headers.set name value).get? e.1 = some e.2 := (Dict.get?_eq_some_iff _ _ _).mpr he
  rw [Dict.get?_set] at hget
  split at hget
  · rename_i hkey
    rw [isCookieHeader, hkey, hname]
  · exact h e ((Dict.get?_eq_some_iff _ _ _).mp hget)

theorem requestSpec_noCookie {a : HttpAdapter} {node : Option PlanNode} {ctx : ExecutionContext} {method : String}
    {headers : Dict String String} (hok : requestSpec a node ctx = .ok (method, headers)) : NoCookie headers.entries := by
  have hempty : NoCookie (∅ : Dict String String).entries := nofun
  have hbase : NoCookie (((∅ : Dict String String).set "User-Agent" a.userAgent).set "Accept" "*/*").entries :=
    (hempty.set (by decide) _).set (by decide) _
  simp only [requestSpec] at hok
  -- The branches of the source: HEAD, POST, browser headers, a byte range, a plain GET.
  split at hok
  · cases hok
    exact hbase
  split at hok
  · split at hok
    · cases hok
      exact hbase
    · split at hok <;> cases hok
  split at hok
  · cases hok
    exact ((hbase.set (by decide) _).set (by decide) _).set (by decide) _
  split at hok
  · split at hok
    · cases hok
      exact hbase.set (by decide) _
    · cases hok
  · cases hok
    exact hbase

/-- A name that folds to an allowed one is not that of a Cookie header. -/
theorem not_cookie_of_allowed {c : Codecs} {name : String}
    (h : allowedExtraHeaders.contains (c.casefold name.toList) = true) : sameHeader name "Cookie" = false := by
  by_contra hcookie
  have hlower : asciiLower name.toList = "cookie".toList := by
    simpa [sameHeader, asciiLower] using hcookie
  have hascii : isAscii name.toList = true := isAscii_of_asciiLower (by rw [hlower]; decide)
  rw [c.casefold_ascii _ hascii, hlower] at h
  exact absurd h (by decide)

theorem initialRequest_noCookie {a : HttpAdapter} {call : HttpCall} {ctx : ExecutionContext} {method : String}
    {headers : Dict String String} (hok : initialRequest a call ctx = .ok (method, headers)) :
    NoCookie headers.entries := by
  simp only [initialRequest, Except.bind_eq_ok, Except.require_eq_ok] at hok
  obtain ⟨⟨_, base⟩, hspec, _, _, _, hallowed, hreturn⟩ := hok
  cases hreturn
  intro e he
  have hget : (base.update call.extraHeaders).get? e.1 = some e.2 := (Dict.get?_eq_some_iff _ _ _).mpr he
  obtain hbase | hextra := Dict.get?_update hget
  · exact requestSpec_noCookie hspec e ((Dict.get?_eq_some_iff _ _ _).mp hbase)
  · exact not_cookie_of_allowed (List.all_eq_true.mp hallowed _ hextra)

/-! ### Where a cookie comes from -/

variable (a : HttpAdapter) (world : World)

/-- The answer to the request set the cookie: its jar's last word on the cookie's key is
Secure, of exactly the request's host and not expired when it is read. -/
inductive SetBy (q : Sent) (ck : EphemeralCookie) : Prop where
  | intro (k : Nat) (response : Response) (parts : SplitResult) (host : List Char) (former latter : List JarCookie)
      (cookie : JarCookie) (hreply : q.reply = .ok response) (hworld : q.reply = (world.hop k).reply)
      (hparts : urlsplit a.codecs.toTables q.url.toList = some parts) (hhost : cookieHost a.codecs parts = some host)
      (hjar : response.jar = former ++ cookie :: latter)
      (hcaptured : CapturedAs a.codecs host (world.hop k).capturedAt cookie ck)
      (hlast : ∀ d ∈ latter, d.key ≠ (ck.name, ck.path))

/-- The answer to the request sets the cookie's key again or expires it. -/
def Touches (q : Sent) (ck : EphemeralCookie) : Prop :=
  ∃ response, q.reply = .ok response ∧ ∃ d ∈ response.jar, d.key = (ck.name, ck.path)

/-- After these requests the cookie is still what one of them set: everything since
was at that origin, an HTTPS one, and left the cookie alone. -/
inductive Live (before : List Sent) (o : String) (ck : EphemeralCookie) : Prop where
  | intro (earlier between : List Sent) (q : Sent) (hbefore : before = earlier ++ q :: between) (hset : SetBy a world q ck)
      (horigin : ∀ p ∈ q :: between, canonicalOrigin a.codecs p.url = some o) (hhttps : ∃ rest, o = "https://" ++ rest)
      (huntouched : ∀ p ∈ between, ¬ Touches p ck)

/-- What the cookies of a request are, given the requests before it. -/
structure Justified (before : List Sent) (r : Sent) : Prop where
  /-- The client adds no cookie of its own. -/
  jar : r.jar = []
  header : r.headers.filter isCookieHeader = if r.cookies = [] then [] else [("Cookie", renderCookies r.cookies)]
  length : (renderCookies r.cookies).length ≤ cookieHeaderLimit
  count : r.cookies.length ≤ cookieCountLimit
  cookies : ∀ ck ∈ r.cookies, ∃ o path, canonicalOrigin a.codecs r.url = some o ∧ Live a world before o ck ∧
    targetPath a.codecs r.url = some path ∧ PathMatches ck.path.toList path

variable {a : HttpAdapter} {world : World}

/-- One more request at the origin that leaves the cookie alone. -/
theorem Live.append {before : List Sent} {o : String} {ck : EphemeralCookie} {p : Sent} (hlive : Live a world before o ck)
    (horigin : canonicalOrigin a.codecs p.url = some o) (huntouched : ¬ Touches p ck) :
    Live a world (before ++ [p]) o ck := by
  obtain ⟨earlier, between, q, rfl, hset, hsame, hhttps, hkept⟩ := hlive
  refine .intro earlier (between ++ [p]) q (by simp) hset ?_ hhttps ?_
  · intro p' hp'
    rw [← List.cons_append] at hp'
    rcases List.mem_append.mp hp' with hp' | hp'
    · exact hsame p' hp'
    · rw [List.mem_singleton] at hp'
      rw [hp', horigin]
  · intro p' hp'
    rcases List.mem_append.mp hp' with hp' | hp'
    · exact hkept p' hp'
    · rw [List.mem_singleton] at hp'
      rw [hp']
      exact huntouched

/-- A cookie does not outlive a hop to another origin: it was set after that hop. -/
theorem Live.after_hop {before earlier between : List Sent} {o : String} {ck : EphemeralCookie} {p : Sent}
    (hlive : Live a world before o ck) (hbefore : before = earlier ++ p :: between)
    (hother : canonicalOrigin a.codecs p.url ≠ some o) : Live a world between o ck := by
  obtain ⟨former, latter, q, hsplit, hset, hsame, hhttps, hkept⟩ := hlive
  rw [hbefore] at hsplit
  obtain ⟨skipped, -, hrest⟩ | ⟨skipped, -, hrest⟩ := List.append_eq_append_iff.mp hsplit
  · cases skipped with
    | nil =>
      cases hrest
      exact absurd (hsame p (List.mem_cons_self ..)) hother
    | cons p' rest =>
      obtain ⟨-, hbetween⟩ := List.cons.inj hrest
      exact .intro rest latter q hbetween hset hsame hhttps hkept
  · exact absurd (hsame p (by rw [hrest]; simp)) hother

/-! ### The invariant -/

/-- Every request is justified by those before it. -/
def Chain (a : HttpAdapter) (world : World) (sent : List Sent) : Prop :=
  ∀ before r after, sent = before ++ r :: after → Justified a world before r

/-- The map of login cookies, told by the requests sent so far. -/
structure Stored (a : HttpAdapter) (world : World) (sent : List Sent) (cookies : CookieMap) (cookieOrigin : Option String) :
    Prop where
  size : cookies.size ≤ cookieCountLimit
  live : ∀ key ck, cookies.get? key = some ck → key = (ck.name, ck.path) ∧
    ∃ o, cookieOrigin = some o ∧ Live a world sent o ck

/-- What holds at the head of the loop of a login. -/
structure Handing (a : HttpAdapter) (world : World) (c : Core) : Prop where
  credential : c.credential = none
  client : NoCookie c.client
  headers : NoCookie c.headers.entries
  stored : Stored a world c.sent c.cookies c.cookieOrigin
  sent : Chain a world c.sent

theorem Stored.empty (sent : List Sent) (cookieOrigin : Option String) : Stored a world sent ∅ cookieOrigin :=
  ⟨Nat.zero_le _, fun key ck hget => by simp at hget⟩

theorem mem_selectCookies {cookies : CookieMap} {path : List Char} {ck : EphemeralCookie}
    (hck : ck ∈ selectCookies cookies path) :
    (∃ key, cookies.get? key = some ck) ∧ cookiePathMatches ck.path.toList path = true := by
  rw [selectCookies, sortCookies, List.mem_insertionSort, List.mem_filter] at hck
  exact ⟨(Dict.mem_values cookies ck).mp hck.1, hck.2⟩

theorem length_selectCookies (cookies : CookieMap) (path : List Char) :
    (selectCookies cookies path).length ≤ cookies.size := by
  rw [selectCookies, sortCookies, List.length_insertionSort]
  refine (List.length_filter_le _ _).trans ?_
  simp [Dict.values, Dict.size]

variable {call : HttpCall} {c c' : Core}

/-- The request of a hop is justified by the requests before it. -/
theorem Handing.justified {headers : Dict String String} {cookies : List EphemeralCookie}
    {reply : Except HttpError Response} (hs : Handing a world c)
    (hcookies : CookiesApplied a call c (credentialHeaders a c) (headers, cookies)) :
    Justified a world c.sent (posted c headers cookies reply) := by
  have hplain : credentialHeaders a c = c.headers := by simp [credentialHeaders, hs.credential]
  rw [hplain] at hcookies
  cases hcookies with
  | none =>
    refine ⟨rfl, ?_, ?_, Nat.zero_le _, by simp [posted]⟩
    · exact hs.client.filter hs.headers
    · exact Nat.zero_le _
  | some origin path _ horigin hscope hpath hsome hlength =>
    refine ⟨rfl, ?_, hlength, (length_selectCookies _ _).trans hs.stored.size, ?_⟩
    · rw [posted, if_neg hsome]
      exact hs.client.filter_set hs.headers _
    · intro ck hck
      obtain ⟨⟨key, hget⟩, hmatches⟩ := mem_selectCookies hck
      obtain ⟨-, o, ho, hlive⟩ := hs.stored.live key ck hget
      have hsame : o = origin := Option.some.inj (ho.symm.trans hscope)
      exact ⟨origin, path, horigin, hsame ▸ hlive, hpath, pathMatches_of_cookiePathMatches hmatches⟩

theorem sameExactOrigin_eq_true {codecs : Codecs} {left right : String} (h : sameExactOrigin codecs left right = true) :
    ∃ o, canonicalOrigin codecs left = some o := by
  unfold sameExactOrigin at h
  split at h
  · rename_i o _ ho _
    exact ⟨o, ho⟩
  · cases h

/-- A redirect hands on what its answer set and what it left alone, within one origin. -/
theorem Stored.captured {k : Nat} {target url redirected : String} {sent : List Sent} {cookies captured : CookieMap}
    {cookieOrigin : Option String} {response : Response} {r : Sent} (hs : Stored a world sent cookies cookieOrigin)
    (hurl : normalizeUrl a.codecs target = some url) (hr : r.url = url) (hreply : r.reply = .ok response)
    (hworld : r.reply = (world.hop k).reply)
    (hscope : ∀ o, cookieOrigin = some o → canonicalOrigin a.codecs url = some o)
    (hsame : sameExactOrigin a.codecs url redirected = true)
    (hcaptured : captureEphemeralLoginCookies a.codecs (world.hop k).capturedAt response.toResponseCookies url cookies =
      .ok captured) :
    Stored a world (sent ++ [r]) captured (if captured.size = 0 then none else canonicalOrigin a.codecs url) := by
  obtain ⟨hsize, hfound⟩ := capture_eq_ok hcaptured
  obtain ⟨origin, horigin⟩ := sameExactOrigin_eq_true hsame
  refine ⟨hsize hs.size, fun key ck hget => ?_⟩
  have hnonempty : captured.size ≠ 0 := by
    intro hzero
    have hmem := (Dict.get?_eq_some_iff _ _ _).mp hget
    rw [List.length_eq_zero_iff.mp hzero] at hmem
    cases hmem
  rw [if_neg hnonempty, horigin]
  obtain ⟨hkept, huntouched⟩ | ⟨parts, host, former, cookie, latter, hparts, hscheme, hhost, hjar, hkey, hck, hlast⟩ :=
    hfound key ck hget
  · obtain ⟨hkey, o, ho, hlive⟩ := hs.live key ck hkept
    have heq : some o = some origin := (hscope o ho).symm.trans horigin
    refine ⟨hkey, o, heq.symm, hlive.append (by rw [hr]; exact hscope o ho) ?_⟩
    rintro ⟨response', hreply', d, hd, hdkey⟩
    rw [hreply] at hreply'
    cases hreply'
    exact huntouched d hd (hdkey.trans hkey.symm)
  · have hname : key = (ck.name, ck.path) := hkey.symm.trans hck.key
    have hset : SetBy a world r ck :=
      .intro k response parts host former latter cookie hreply hworld (hr ▸ hparts) hhost hjar hck (hname ▸ hlast)
    refine ⟨hname, origin, rfl, .intro sent [] r rfl hset ?_ (https_of_normalized hurl hparts hscheme horigin) (by simp)⟩
    intro p hp
    rw [List.mem_singleton] at hp
    rw [hp, hr, horigin]

/-! ### What a turn preserves -/

/-- The state in which the request of a hop is composed: the cookies are those of the
URL's own origin, and the URL is in its one spelling. -/
structure Ready (a : HttpAdapter) (world : World) (c : Core) : Prop extends Handing a world c where
  scope : ∀ o, c.cookieOrigin = some o → canonicalOrigin a.codecs c.current = some o
  normalized : ∃ target, normalizeUrl a.codecs target = some c.current

theorem Handing.arrived {h : Hop} (hs : Handing a world c) (hmode : call.credentialMode = .anonymous)
    (harrived : Arrived a call h c c') :
    Handing a world c' ∧ ∃ target, normalizeUrl a.codecs target = some c'.current := by
  obtain ⟨url, _, haccepted, hsettled⟩ := harrived
  have hc : c' = {c with current := url} := by
    cases hsettled with
    | unchanged _ hc => exact hc
    | obtained m hunsettled => simp [hunsettled.1] at hmode
    | refreshed m m' x hunsettled => simp [hunsettled.1] at hmode
  rw [hc]
  exact ⟨⟨hs.credential, hs.client, hs.headers, hs.stored, hs.sent⟩, c.current, haccepted.normalized⟩

theorem Handing.prepared {h : Hop} (hs : Handing a world c) (hmode : call.credentialMode = .anonymous)
    (hprepared : Prepared a call h c c') : Ready a world c' := by
  cases hprepared with
  | kept c₁ harrived _ hscope =>
    obtain ⟨hs', htarget⟩ := hs.arrived hmode harrived
    exact ⟨⟨hs'.credential, hs'.client, hs'.headers, hs'.stored, hs'.sent⟩, hscope, htarget⟩
  | withheld c₁ harrived =>
    obtain ⟨hs', htarget⟩ := hs.arrived hmode harrived
    exact ⟨⟨hs'.credential, hs'.client, hs'.headers, .empty _ _, hs'.sent⟩, by simp, htarget⟩

/-- With the request of the hop every request is still justified. -/
theorem Handing.posted {headers : Dict String String} {cookies : List EphemeralCookie}
    {reply : Except HttpError Response} (hs : Handing a world c)
    (hcookies : CookiesApplied a call c (credentialHeaders a c) (headers, cookies)) :
    Chain a world (post c headers cookies reply).sent := by
  intro before r after hsplit
  obtain rfl | ⟨last, after', rfl⟩ : after = [] ∨ ∃ last after', after = after' ++ [last] := by
    rcases List.eq_nil_or_concat after with h | ⟨after', last, h⟩
    · exact .inl h
    · exact .inr ⟨last, after', by simpa using h⟩
  · obtain ⟨rfl, hr⟩ := List.append_inj' (show c.sent ++ [Http.posted c headers cookies reply] = before ++ [r] from hsplit) rfl
    cases hr
    exact hs.justified hcookies
  · have hsplit' : c.sent ++ [Http.posted c headers cookies reply] = (before ++ r :: after') ++ [last] := by
      simpa [post] using hsplit
    exact hs.sent before r after' (List.append_inj' hsplit' rfl).1

theorem NoCookie.switched {status : Nat} (hheaders : NoCookie c.headers.entries) :
    NoCookie (switched status c).headers.entries := by
  unfold Http.switched
  split
  · exact hheaders.erase _
  · exact hheaders

/-- After a redirect the invariant holds again. -/
theorem Ready.answered {k : Nat} {headers : Dict String String} {cookies : List EphemeralCookie}
    {response : Response} (hs : Ready a world c) (hallowed : call.allowEphemeralLoginCookies = true)
    (hcookies : CookiesApplied a call c (credentialHeaders a c) (headers, cookies))
    (hreply : (world.hop k).reply = .ok response)
    (hanswered : Answered a call (world.hop k) (post c headers cookies (world.hop k).reply) response none c') :
    Handing a world c' := by
  obtain ⟨target, hurl⟩ := hs.normalized
  have hsent : Chain a world (post c headers cookies (world.hop k).reply).sent := hs.posted hcookies
  cases hanswered with
  | redirected _ _ hredirected =>
    obtain ⟨redirected, cookies', cookieOrigin', -, hhanded⟩ := hredirected
    obtain ⟨hclient, -, -, hcredential, -, -, hlog⟩ := switched_kept response.status
      {post c headers cookies (world.hop k).reply with redirectStatuses := c.redirectStatuses ++ [response.status]}
    have hstored : Stored a world (post c headers cookies (world.hop k).reply).sent cookies' cookieOrigin' := by
      cases hhanded with
      | disabled hdisabled => simp [hallowed] at hdisabled
      | captured captured hsame hcaptured =>
        exact hs.stored.captured hurl rfl hreply rfl hs.scope hsame hcaptured
      | dropped => exact .empty _ _
    refine ⟨hcredential.trans hs.credential, ?_, NoCookie.switched hs.headers, ?_, ?_⟩
    · have hkept := hs.client
      rw [show c.client = _ from hclient.symm] at hkept
      exact hkept
    · rw [← hlog] at hstored
      exact hstored
    · rw [← hlog] at hsent
      exact hsent
  | refreshed m m' x _ hheld =>
    have hnone : c.credential = some m := hheld
    rw [hs.credential] at hnone
    cases hnone

/-! ### The chain of a login -/

theorem Handing.requested {h : Hop} (hs : Handing a world c) (hmode : call.credentialMode = .anonymous)
    (hrequested : Requested a call h c c') : Chain a world c'.sent := by
  obtain ⟨c₁, headers, cookies, hprepared, hcookies⟩ := hrequested
  exact (hs.prepared hmode hprepared).posted hcookies

theorem Handing.failed {h : Hop} (hs : Handing a world c) (hmode : call.credentialMode = .anonymous)
    (hfailed : Failed a call h c c') : Chain a world c'.sent := by
  cases hfailed with
  | early url _ hstopped =>
    rw [hstopped.sent]
    exact hs.sent
  | arrived c₁ visited cookies cookieOrigin harrived => exact (hs.arrived hmode harrived).1.sent
  | requested c₁ _ hrequested hstopped =>
    rw [hstopped.sent]
    exact hs.requested hmode hrequested

theorem Handing.turn {s : Exchange} (hs : Handing a world s.core) (hmode : call.credentialMode = .anonymous)
    (hallowed : call.allowEphemeralLoginCookies = true) (k : Nat) :
    (hop a call (world.hop k)).Meets s
      (fun r s' => if r.isSome then Chain a world s'.sent else Handing a world s'.core)
      fun _ s' => Chain a world s'.sent := by
  refine (hop_meets a call (world.hop k) s).mono ?_ ?_
  · rintro r t ⟨-, c', response, hrequested, hreply, hanswered⟩
    cases r with
    | some result =>
      cases hanswered
      exact hs.requested hmode hrequested
    | none =>
      obtain ⟨c₁, headers, cookies, hprepared, hcookies⟩ := hrequested
      exact (hs.prepared hmode hprepared).answered hallowed hcookies hreply hanswered
  · rintro _ t ⟨-, hfailed⟩
    exact hs.failed hmode hfailed

variable {ctx : ExecutionContext} {validated : ValidatedAddresses}

theorem opened_handing {method : String} {headers : Dict String String}
    (hopening : initialRequest a call ctx = .ok (method, headers)) :
    Handing a world (opened a call ctx validated method headers) := by
  have hheaders := initialRequest_noCookie hopening
  refine ⟨rfl, NoCookie.merge ?_ hheaders, hheaders, .empty _ _, ?_⟩
  · intro e he
    simp only [List.mem_cons, List.not_mem_nil, or_false] at he
    rcases he with rfl | rfl | rfl | rfl <;> (simp only [isCookieHeader]; decide)
  · intro before r after hsplit
    exact absurd (show [] = before ++ r :: after from hsplit) (by simp)

/-- **Login cookies are handed on within one HTTPS origin**: every cookie of a request
was set by the answer to an earlier one, every request since was at that origin and left
the cookie alone, and its path matches the target's. After a hop to another origin only
a cookie set later is sent. -/
theorem login_cookies_justified (a : HttpAdapter) (call : HttpCall) (world : World) (ctx : ExecutionContext)
    (validated : ValidatedAddresses) (hallowed : call.allowEphemeralLoginCookies = true) (before after : List Sent)
    (r : Sent) (hsent : (exchange a call world ctx validated).sent = before ++ r :: after) :
    Justified a world before r ∧
    ∀ earlier p between, before = earlier ++ p :: between →
      canonicalOrigin a.codecs p.url ≠ canonicalOrigin a.codecs r.url →
      ∀ ck ∈ r.cookies, ∃ o, canonicalOrigin a.codecs r.url = some o ∧ Live a world between o ck := by
  have hchain : Chain a world (exchange a call world ctx validated).sent := by
    refine request_meets a call world ctx validated (E := fun s => Chain a world s.sent)
      (I := fun _ s => call.credentialMode = .anonymous ∧ Handing a world s.core) (J := fun _ _ => False) ?_ ?_ ?_ ?_ ?_ ?_ ?_
    · intro before r after hsplit
      exact absurd (show [] = before ++ r :: after from hsplit) (by simp)
    · intro _ hmode s method headers hopening _ _ hcore
      exact ⟨hmode hallowed, hcore ▸ opened_handing hopening⟩
    · rintro k - s ⟨hmode, hs⟩
      refine (hs.turn hmode hallowed k).mono ?_ fun _ _ ht => ht
      intro r t ht
      cases r with
      | some _ => exact ht
      | none => exact ⟨hmode, ht⟩
    · exact fun s hs => hs.2.sent
    -- Over HTTP/3 no login is handed on.
    · simp [hallowed]
    · exact fun _ _ _ hfalse => hfalse.elim
    · exact fun _ hfalse => hfalse.elim
  have hjustified := hchain before r after hsent
  refine ⟨hjustified, fun earlier p between hbefore hother ck hck => ?_⟩
  obtain ⟨o, -, horigin, hlive, -⟩ := hjustified.cookies ck hck
  exact ⟨o, horigin, hlive.after_hop hbefore (horigin ▸ hother)⟩

/-- A login that answers with a session cookie and sends the browser on. -/
def loginAnswers : List Response :=
  [{status := 303, location := some "/workspace", setCookie := ["session=abc; Secure; Path=/"],
    jar := [{name := "session", value := some "abc", path := "/", domain := "app.example.com", secure := true}]}]

def loginCall : HttpCall where
  destination := "https://app.example.com/login"
  methodOverride := some "POST"
  body := some "user=u".toUTF8.toList
  allowEphemeralLoginCookies := true
  credentialMode := .anonymous

/-- The requests of this login. -/
def loginSent : List Sent :=
  (exchange sampleAdapter loginCall (scripted loginAnswers) {request := {target := loginCall.destination}} ∅).sent

theorem loginSent_cookies : (loginSent.map fun r => r.cookies.map (·.name)) = [[], ["session"]] := by decide +kernel

/-- The second request carries the session, as the first one's answer justifies. -/
theorem login_cookies_justified_login :
    ∃ first second, loginSent = [first] ++ second :: [] ∧ second.cookies.map (·.name) = ["session"] ∧
      Justified sampleAdapter (scripted loginAnswers) [first] second := by
  have hcookies := loginSent_cookies
  have hlength : loginSent.length = 2 := by simpa using congrArg List.length hcookies
  obtain ⟨first, second, hsent⟩ := List.length_eq_two.mp hlength
  rw [hsent] at hcookies
  refine ⟨first, second, hsent, ?_, ?_⟩
  · exact (List.cons.inj (List.cons.inj hcookies).2).1
  · exact (login_cookies_justified sampleAdapter loginCall (scripted loginAnswers)
      {request := {target := loginCall.destination}} ∅ rfl [first] [] second hsent).1

end Fetech.Http
