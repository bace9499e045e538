import Fetech.Http.Stages

/-! How many answers a call waits for (the loop of `HTTPAdapter._request` and that of
`_request_http3` in `fetech/adapters/http.py`).

`range(budget.redirects + 1)` leaves a turn for every redirect of the budget and one for the
answer at the end. A turn whose token the server calls expired is repeated with a refreshed
one, and the repeat takes a turn of its own from the same range. -/
namespace Fetech.Http
open Lib Lib.Url Lib.Program

/-! ### Chains of turns -/

/-- The error of a loop that has run out of turns. -/
def exhausted : HttpError := .execution "redirect budget exhausted"

/-- A loop whose turns move on, are retried or land, as their answers say. -/
structure Turning where
  turn : Hop → HttpM (Option HttpResult)
  moves : Hop → Stage → Stage → Prop
  retries : Hop → Stage → Stage → Prop
  lands : Hop → Stage → Page → Prop
  moved : ∀ {h s g}, moves h s.stage g → Reaches (turn h) s (· = none) g
  retried : ∀ {h s g}, retries h s.stage g → Reaches (turn h) s (· = none) g
  landed : ∀ {h s page}, lands h s.stage page →
    (turn h).Meets s (fun r _ => ∃ result, r = some result ∧ result.page = page) fun _ _ => False

/-- **A chain of answers** from a stage to a page: so many redirects, and so many tokens refreshed on
the way. -/
inductive AnswerChain (t : Turning) : (Nat → Hop) → Stage → Nat → Nat → Page → Prop
  | page {world : Nat → Hop} {g : Stage} {page : Page} (hlands : t.lands (world 0) g page) :
      AnswerChain t world g 0 0 page
  | redirect {world : Nat → Hop} {g g' : Stage} {redirects refreshes : Nat} {page : Page}
      (hmoves : t.moves (world 0) g g') (hrest : AnswerChain t (fun k => world (k + 1)) g' redirects refreshes page) :
      AnswerChain t world g (redirects + 1) refreshes page
  | refresh {world : Nat → Hop} {g g' : Stage} {redirects refreshes : Nat} {page : Page}
      (hretries : t.retries (world 0) g g') (hrest : AnswerChain t (fun k => world (k + 1)) g' redirects refreshes page) :
      AnswerChain t world g redirects (refreshes + 1) page

/-- **A loop follows a chain to its page, if it has a turn for each of its answers**, and is
exhausted by it if it has not. -/
theorem AnswerChain.hops_meets {t : Turning} {world : Nat → Hop} {g : Stage} {redirects refreshes : Nat} {page : Page}
    (hchain : AnswerChain t world g redirects refreshes page) (n : Nat) {s : Exchange} (hs : s.stage = g) :
    (hops t.turn n world).Meets s (fun result _ => redirects + refreshes < n ∧ result.page = page)
      fun err _ => n ≤ redirects + refreshes ∧ err = exhausted := by
  induction hchain generalizing n s with
  | page hlands =>
    cases n with
    | zero => exact ⟨Nat.zero_le _, rfl⟩
    | succ n =>
      rw [← hs] at hlands
      rw [hops, meets_bind]
      refine (t.landed hlands).mono ?_ fun _ _ h => h.elim
      rintro _ u ⟨result, rfl, hpage⟩
      exact ⟨n.succ_pos, hpage⟩
  | redirect hmoves _ ih =>
    cases n with
    | zero => exact ⟨Nat.zero_le _, rfl⟩
    | succ n =>
      rw [← hs] at hmoves
      rw [hops, meets_bind]
      refine (t.moved hmoves).mono ?_ fun _ _ h => h.elim
      rintro _ u ⟨rfl, hu⟩
      exact (ih n hu).mono (fun _ _ hr => ⟨by omega, hr.2⟩) fun _ _ he => ⟨by omega, he.2⟩
  | refresh hretries _ ih =>
    cases n with
    | zero => exact ⟨Nat.zero_le _, rfl⟩
    | succ n =>
      rw [← hs] at hretries
      rw [hops, meets_bind]
      refine (t.retried hretries).mono ?_ fun _ _ h => h.elim
      rintro _ u ⟨rfl, hu⟩
      exact (ih n hu).mono (fun _ _ hr => ⟨by omega, hr.2⟩) fun _ _ he => ⟨by omega, he.2⟩

variable (a : HttpAdapter) (call : HttpCall) (h : Hop)

/-- The answer of the turn is a redirect that can be followed. -/
def HopMoves (h : Hop) (g g' : Stage) : Prop :=
  ∃ g₁ applies response, Answers a call h g applies response g₁ ∧ Moves a call h response g₁ g'

/-- The answer of the turn calls a token expired that can be refreshed. -/
def HopRetries (h : Hop) (g g' : Stage) : Prop :=
  ∃ g₁ applies response, Answers a call h g applies response g₁ ∧ Retries a h response applies g₁ g'

/-- The answer of the turn is the page. -/
def HopLands (h : Hop) (g : Stage) (page : Page) : Prop :=
  ∃ g₁ applies response, Answers a call h g applies response g₁ ∧ Lands call response g₁ page

variable {a call h} in
theorem HopMoves.reaches {s : Exchange} {g : Stage} (hmoves : HopMoves a call h s.stage g) :
    Reaches (hop a call h) s (· = none) g := by
  obtain ⟨g₁, applies, response, hanswers, hmoves⟩ := hmoves
  exact hop_moved a call h hanswers hmoves

variable {a call h} in
theorem HopRetries.reaches {s : Exchange} {g : Stage} (hretries : HopRetries a call h s.stage g) :
    Reaches (hop a call h) s (· = none) g := by
  obtain ⟨g₁, applies, response, hanswers, hretries⟩ := hretries
  exact hop_retried a call h hanswers hretries

variable {a call h} in
theorem HopLands.reaches {s : Exchange} {page : Page} (hlands : HopLands a call h s.stage page) :
    (hop a call h).Meets s (fun r _ => ∃ result, r = some result ∧ result.page = page) fun _ _ => False := by
  obtain ⟨g₁, applies, response, hanswers, hlands⟩ := hlands
  exact hop_landed a call h hanswers hlands

/-- The loop of `_request`. -/
def turning : Turning where
  turn := hop a call
  moves := HopMoves a call
  retries := HopRetries a call
  lands := HopLands a call
  moved := HopMoves.reaches
  retried := HopRetries.reaches
  landed := HopLands.reaches

/-! ### HTTP/3 -/

/-- What an HTTP/3 answer adds to the bytes transferred. -/
def Stage.transfer (g : Stage) (result : Http3Response) : Stage :=
  {g with transferred := g.transferred + result.body.length}

/-- An HTTP/3 turn sends its request and is answered within the byte budgets. -/
inductive Http3Answers (g : Stage) : Http3Response → Stage → Prop
  | intro (g₁ : Stage) (parts : SplitResult) (result : Http3Response) (hslot : Slotted a h g) (hallowed : Allowed a h g g₁)
      (hanonymous : g.request.authenticationRef = none)
      (hparts : urlsplit a.codecs.toTables g₁.current.toList = some parts) (hscheme : parts.scheme = "https".toList)
      (hfresh : Fresh g₁) (hwireRoom : (g.transferred : Int) < g.maximumWireBytes)
      (hroom : (g.transferred : Int) < g.maximumDecompressedBytes)
      (htime : h.publisherElapsed < g.request.budget.deadlineSeconds) (hreply : h.http3 = .ok result)
      (hwire : ((g.transfer result).transferred : Int) ≤ g.maximumWireBytes)
      (hdecompressed : ((g.transfer result).transferred : Int) ≤ g.maximumDecompressedBytes) :
      Http3Answers g result (g₁.enter.transfer result)

inductive Http3Moves (result : Http3Response) (g : Stage) : Stage → Prop
  | intro (joined : List Char) (hstatus : [301, 302, 303, 307, 308].contains result.status = true)
      (hpoints : result.redirectUrl.isEmpty = false)
      (hjoined : urljoin a.codecs.toTables g.current.toList result.redirectUrl.toList = some joined) :
      Http3Moves result g {g with previous := some g.current, current := String.ofList joined}

inductive Http3Lands (result : Http3Response) (g : Stage) : Page → Prop
  | intro (hredirect : [301, 302, 303, 307, 308].contains result.status = false) (hstatus : result.status < 400) :
      Http3Lands result g {url := g.current, response := result.response, body := result.body}

theorem enterHttp3_reaches {s : Exchange} {parts : SplitResult} (hanonymous : s.stage.request.authenticationRef = none)
    (hparts : urlsplit a.codecs.toTables s.current.toList = some parts) (hscheme : parts.scheme = "https".toList)
    (hfresh : Fresh s.stage) (hpinned : s.validated.of a.codecs (parts.hostname a.codecs.toTables) ≠ []) :
    (enterHttp3 a).Meets s (fun _ t => t.stage = s.stage.enter) fun _ _ => False := by
  have hanonymous' : s.context.request.authenticationRef.isSome = false := by
    rw [show s.context.request.authenticationRef = none from hanonymous]
    rfl
  have hnew : s.current ∉ s.visited := hfresh
  have hpinned' : (s.validated.of a.codecs (parts.hostname a.codecs.toTables)).isEmpty = false := by
    rw [List.isEmpty_eq_false_iff]
    exact hpinned
  simp only [enterHttp3, splitUrl, when, meets_bind, meets_get, meets_check, meets_modify, meets_pure, meets_ofOption_some,
    hanonymous', hparts, Bool.false_eq_true, if_false]
  refine ⟨fun _ => ⟨fun _ => ⟨fun _ => rfl, fun hno => ?_⟩, fun hseen => ?_⟩, fun hno => ?_⟩
  · rw [hpinned'] at hno
    cases hno
  · simp [hnew] at hseen
  · exact absurd hscheme (of_decide_eq_false hno)

/-- An HTTP/3 turn does what its answer leads to. -/
theorem hopHttp3_reaches {s : Exchange} {g : Stage} {result : Http3Response} (hanswers : Http3Answers a h s.stage result g)
    {Q : Option HttpResult → Exchange → Prop}
    (hhandled : ∀ t : Exchange, t.stage.transfer result = g → (g.transferred : Int) ≤ t.maximumWireBytes →
      (g.transferred : Int) ≤ t.maximumDecompressedBytes → (handleHttp3 a result).Meets t Q fun _ _ => False) :
    (hopHttp3 a h).Meets s Q fun _ _ => False := by
  cases hanswers with
  | intro g₁ parts _ hslot hallowed hanonymous hparts hscheme hfresh hwireRoom hroom htime hreply hwire hdecompressed =>
    obtain ⟨destination, hshown⟩ := hallowed.shown
    obtain ⟨parts', hparts', hpinned⟩ := hallowed.pinned
    have hsame : parts' = parts := Option.some.inj (hparts'.symm.trans hparts)
    subst hsame
    have hkept : g₁.request = s.stage.request ∧ g₁.transferred = s.transferred ∧
        g₁.maximumWireBytes = s.maximumWireBytes ∧ g₁.maximumDecompressedBytes = s.maximumDecompressedBytes := by
      cases hallowed
      exact ⟨rfl, rfl, rfl, rfl⟩
    obtain ⟨hrequest, htransferred, hmaximum, hmaximumDecompressed⟩ := hkept
    rw [hopHttp3, meets_bind]
    refine (takeSlot_reaches a h hslot).mono (fun _ r hr => ?_) fun _ _ h => h
    rw [hr, meets_bind]
    refine (evaluateCurrent_reaches a h hallowed).mono (fun _ t ht => ?_) fun _ _ h => h
    subst ht
    rw [← hrequest] at hanonymous
    rw [meets_bind]
    refine (enterHttp3_reaches a hanonymous hparts hscheme hfresh hpinned).mono (fun _ u hu => ?_) fun _ _ h => h
    have hshown' : a.policy.sanitizeUrl u.current = some destination :=
      (congrArg (fun g : Stage => a.policy.sanitizeUrl g.current) hu).trans hshown
    rw [meets_bind]
    refine (recordRateLimit_reaches a hshown').mono (fun _ v hv => ?_) fun _ _ h => h
    have hstage : v.stage = t.stage.enter := hv.trans hu
    have hvtransferred : v.transferred = s.transferred := (congrArg Stage.transferred hstage).trans htransferred
    have hvmaximum : v.maximumWireBytes = s.maximumWireBytes := (congrArg Stage.maximumWireBytes hstage).trans hmaximum
    have hvdecompressed : v.maximumDecompressedBytes = s.maximumDecompressedBytes :=
      (congrArg Stage.maximumDecompressedBytes hstage).trans hmaximumDecompressed
    have hvrequest : v.context.request = s.context.request := (congrArg Stage.request hstage).trans hrequest
    have hleft : 0 < min (v.maximumWireBytes - v.transferred) (v.maximumDecompressedBytes - v.transferred) := by
      have hwireRoom' : (s.transferred : Int) < s.maximumWireBytes := hwireRoom
      have hroom' : (s.transferred : Int) < s.maximumDecompressedBytes := hroom
      rw [hvmaximum, hvdecompressed, hvtransferred]
      omega
    have htime' : h.publisherElapsed < v.context.request.budget.deadlineSeconds := by
      rw [hvrequest]
      exact htime
    simp only [withinDeadline, sendHttp3, meets_bind, meets_get, meets_check_true, meets_modify, meets_ofExcept_ok,
      decide_eq_true hleft, decide_eq_true htime', hreply]
    have htotal : (t.stage.enter.transfer result).transferred = (s.stage.transfer result).transferred :=
      congrArg (· + result.body.length) htransferred
    refine hhandled _ (congrArg (Stage.transfer · result) hstage) ?_ ?_
    · rw [htotal]
      exact hwire.trans_eq hvmaximum.symm
    · rw [htotal]
      exact hdecompressed.trans_eq hvdecompressed.symm

theorem hopHttp3_moved {s : Exchange} {g g' : Stage} {result : Http3Response}
    (hanswers : Http3Answers a h s.stage result g) (hmoves : Http3Moves a result g g') :
    Reaches (hopHttp3 a h) s (· = none) g' := by
  refine hopHttp3_reaches a h hanswers fun t ht hwire hdecompressed => ?_
  subst ht
  cases hmoves with
  | intro joined hstatus hpoints hjoined =>
    have hjoined' : urljoin a.codecs.toTables t.current.toList result.redirectUrl.toList = some joined := hjoined
    have hwire' : ((t.transferred + result.body.length : Nat) : Int) ≤ t.maximumWireBytes := hwire
    have hdecompressed' : ((t.transferred + result.body.length : Nat) : Int) ≤ t.maximumDecompressedBytes := hdecompressed
    simp only [handleHttp3, meets_bind, meets_modify, meets_get, meets_check_true, decide_eq_true hwire',
      decide_eq_true hdecompressed', Bool.and_self]
    rw [if_pos hstatus]
    simp only [meets_bind, meets_modify, meets_ofOption_some, meets_pure, hpoints, hjoined']
    exact ⟨trivial, rfl⟩

theorem hopHttp3_landed {s : Exchange} {g : Stage} {result : Http3Response} {page : Page}
    (hanswers : Http3Answers a h s.stage result g) (hlands : Http3Lands result g page) :
    (hopHttp3 a h).Meets s (fun r _ => ∃ result, r = some result ∧ result.page = page) fun _ _ => False := by
  refine hopHttp3_reaches a h hanswers fun t ht hwire hdecompressed => ?_
  subst ht
  cases hlands with
  | intro hredirect hstatus =>
    have hwire' : ((t.transferred + result.body.length : Nat) : Int) ≤ t.maximumWireBytes := hwire
    have hdecompressed' : ((t.transferred + result.body.length : Nat) : Int) ≤ t.maximumDecompressedBytes := hdecompressed
    have hother : ¬[301, 302, 303, 307, 308].contains result.status = true := by
      rw [hredirect]
      exact Bool.false_ne_true
    simp only [handleHttp3, meets_bind, meets_modify, meets_get, meets_check_true, decide_eq_true hwire',
      decide_eq_true hdecompressed', Bool.and_self]
    rw [if_neg hother, if_neg (by omega), if_neg (by omega), if_neg (by omega)]
    exact ⟨_, rfl, rfl⟩

/-- The HTTP/3 answer of the turn is a redirect that can be followed. -/
def HopHttp3Moves (h : Hop) (g g' : Stage) : Prop :=
  ∃ g₁ result, Http3Answers a h g result g₁ ∧ Http3Moves a result g₁ g'

/-- The HTTP/3 answer of the turn is the page. -/
def HopHttp3Lands (h : Hop) (g : Stage) (page : Page) : Prop :=
  ∃ g₁ result, Http3Answers a h g result g₁ ∧ Http3Lands result g₁ page

variable {a h} in
theorem HopHttp3Moves.reaches {s : Exchange} {g : Stage} (hmoves : HopHttp3Moves a h s.stage g) :
    Reaches (hopHttp3 a h) s (· = none) g := by
  obtain ⟨g₁, result, hanswers, hmoves⟩ := hmoves
  exact hopHttp3_moved a h hanswers hmoves

variable {a h} in
theorem HopHttp3Lands.reaches {s : Exchange} {page : Page} (hlands : HopHttp3Lands a h s.stage page) :
    (hopHttp3 a h).Meets s (fun r _ => ∃ result, r = some result ∧ result.page = page) fun _ _ => False := by
  obtain ⟨g₁, result, hanswers, hlands⟩ := hlands
  exact hopHttp3_landed a h hanswers hlands

/-- The loop of `_request_http3`, which holds no credential to refresh. -/
def turningHttp3 : Turning where
  turn := hopHttp3 a
  moves := HopHttp3Moves a
  retries _ _ _ := False
  lands := HopHttp3Lands a
  moved := HopHttp3Moves.reaches
  retried := False.elim
  landed := HopHttp3Lands.reaches

/-! ### The call -/

variable (world : World) (ctx : ExecutionContext) (validated : ValidatedAddresses)

/-- The client opens: there is a budget and time left, and the first request is one that may be sent. -/
structure Opens (method : String) (headers : Dict String String) : Prop where
  wire : 0 < ctx.remainingBudget .bytes
  decompressed : 0 < ctx.remainingBudget .decompressedBytes
  elapsed : world.elapsed < ctx.request.budget.deadlineSeconds
  initial : initialRequest a call ctx = .ok (method, headers)
  body : call.body.isSome = true → method ≠ "GET" ∧ method ≠ "HEAD"
  upload : ∀ body ∈ call.body, (body.length : Int) ≤ min 1000000 (ctx.remainingBudget .bytes)

/-- The stage a loop begins on. -/
def opening (method : String) (body : Option (List UInt8)) : Stage :=
  {(Exchange.initial ctx validated call).stage with
    maximumWireBytes := ctx.remainingBudget .bytes, maximumDecompressedBytes := ctx.remainingBudget .decompressedBytes
    method, requestBody := body}

/-- **A call meets a chain of answers**: so many redirects to new URLs that are allowed, so many tokens
called expired and refreshed, and at last a page within the budgets. -/
inductive Meeting : Nat → Nat → Page → Prop
  | http (method : String) (headers : Dict String String) (redirects refreshes : Nat) (page : Page)
      (hlogin : call.allowEphemeralLoginCookies = true → call.credentialMode = .anonymous)
      (hhttp : ctx.request.outputRequirements.contains "http_3" = false) (hopens : Opens a call world ctx method headers)
      (hchain : AnswerChain (turning a call) world.hop (opening call ctx validated method call.body) redirects refreshes page) :
      Meeting redirects refreshes page
  | http3 (redirects refreshes : Nat) (page : Page) (hlogin : call.allowEphemeralLoginCookies = false)
      (hhttp3 : ctx.request.outputRequirements.contains "http_3" = true) (hintent : ctx.request.intent ≠ "crawl")
      (hwire : 0 < ctx.remainingBudget .bytes) (hdecompressed : 0 < ctx.remainingBudget .decompressedBytes)
      (hchain : AnswerChain (turningHttp3 a) world.hop (opening call ctx validated "GET" none) redirects refreshes page) :
      Meeting redirects refreshes page

variable {a call world ctx validated}

theorem prepare_reaches {method : String} {headers : Dict String String} (hopens : Opens a call world ctx method headers) :
    (prepare a call world.elapsed).Meets (.initial ctx validated call)
      (fun _ s => s.stage = opening call ctx validated method call.body) fun _ _ => False := by
  obtain ⟨hwire, hdecompressed, helapsed, hinitial, hbody, hupload⟩ := hopens
  have hsafe : (!(call.body.isSome && (method == "GET" || method == "HEAD"))) = true := by
    cases hsome : call.body.isSome with
    | false => rfl
    | true =>
      obtain ⟨hget, hhead⟩ := hbody hsome
      simp [hget, hhead]
  have hsmall : (call.body.all fun body => (body.length : Int) ≤ min 1000000 (ctx.remainingBudget .bytes)) = true := by
    cases hsome : call.body with
    | none => rfl
    | some body => exact decide_eq_true (hupload body hsome)
  simp only [prepare, withinDeadline, meets_bind, meets_get, meets_check_true, meets_ofExcept_ok, meets_modify, Exchange.initial,
    decide_eq_true hwire, decide_eq_true hdecompressed, decide_eq_true helapsed, hinitial, hsmall, hsafe, Bool.and_self]
  rfl

/-- **A call returns the page of a chain if it has a turn for each of its answers**, and is exhausted
if it has not. -/
theorem request_meeting {redirects refreshes : Nat} {page : Page}
    (hmeeting : Meeting a call world ctx validated redirects refreshes page) :
    (request a call world).Meets (.initial ctx validated call)
      (fun result _ => redirects + refreshes < turns ctx ∧ result.page = page)
      fun err _ => turns ctx ≤ redirects + refreshes ∧ err = exhausted := by
  simp only [request, meets_bind, meets_check, meets_get, meets_ite]
  cases hmeeting with
  | http method headers _ _ _ hlogin hhttp hopens hchain =>
    have hmode : (!(call.allowEphemeralLoginCookies && call.credentialMode != .anonymous)) = true := by
      cases hon : call.allowEphemeralLoginCookies with
      | false => rfl
      | true =>
        rw [hlogin hon]
        rfl
    refine ⟨fun _ => ⟨fun hhttp3 => ?_, fun _ => ?_⟩, fun hno => ?_⟩
    · exact absurd (hhttp.symm.trans hhttp3) Bool.false_ne_true
    · exact (prepare_reaches hopens).mono (fun _ s hs => hchain.hops_meets (turns ctx) hs) fun _ _ h => h.elim
    · exact absurd (hno.symm.trans hmode) Bool.false_ne_true
  | http3 _ _ _ hlogin hhttp3 hintent hwire hdecompressed hchain =>
    refine ⟨fun _ => ⟨fun _ => ⟨fun _ => ?_, fun hno => ?_⟩, fun hno => absurd hhttp3 hno⟩, fun hno => ?_⟩
    · have hintent' : ctx.request.intent ≠ "crawl" := hintent
      simp only [prepareHttp3, meets_bind, meets_get, meets_check_true, meets_modify, Exchange.initial,
        decide_eq_true hintent', decide_eq_true hwire, decide_eq_true hdecompressed, Bool.and_self]
      exact hchain.hops_meets (turns ctx) rfl
    · rw [hlogin] at hno
      cases hno
    · rw [hlogin] at hno
      cases hno

/-- A refresh that was tried stays tried. -/
theorem Answers.refreshAttempted {h : Hop} {g g' : Stage} {applies : Bool} {response : Response}
    (hanswers : Answers a call h g applies response g') (htried : g.refreshAttempted = true) :
    g'.refreshAttempted = true := by
  cases hanswers with
  | intro g₁ _ fetched _ _ harrives hrobots =>
    have harrived : g₁.refreshAttempted = true := by
      cases harrives with
      | intro g₂ g₃ _ _ hallowed hcredential _ hwithheld =>
        cases hallowed
        cases hcredential <;> cases hwithheld <;> first | exact htried | rfl
    cases hrobots <;> exact harrived

theorem Moves.refreshAttempted {h : Hop} {g g' : Stage} {response : Response} (hmoves : Moves a call h response g g') :
    g'.refreshAttempted = g.refreshAttempted := by
  cases hmoves with
  | intro _ _ g₁ _ _ _ _ _ _ hhands =>
    have hswitched : (g.switched response.status).refreshAttempted = g.refreshAttempted := by
      unfold Stage.switched
      split <;> rfl
    cases hhands <;> exact hswitched

/-- A call refreshes one token at most. -/
theorem AnswerChain.refreshes_le {world : Nat → Hop} {g : Stage} {redirects refreshes : Nat} {page : Page}
    (hchain : AnswerChain (turning a call) world g redirects refreshes page) :
    refreshes ≤ 1 ∧ (g.refreshAttempted = true → refreshes = 0) := by
  induction hchain with
  | page _ => exact ⟨Nat.zero_le _, fun _ => rfl⟩
  | redirect hmoves _ ih =>
    obtain ⟨g₁, applies, response, hanswers, hmoves⟩ := hmoves
    exact ⟨ih.1, fun htried => ih.2 (hmoves.refreshAttempted.trans (hanswers.refreshAttempted htried))⟩
  | refresh hretries _ ih =>
    obtain ⟨g₁, applies, response, hanswers, hretries⟩ := hretries
    cases hretries with
    | intro existing m _ _ _ _ _ _ hrefreshed =>
      have hnone := ih.2 rfl
      refine ⟨by omega, fun htried => ?_⟩
      have hagain := hanswers.refreshAttempted htried
      rw [hrefreshed.first] at hagain
      cases hagain

theorem AnswerChain.refreshes_http3 {world : Nat → Hop} {g : Stage} {redirects refreshes : Nat} {page : Page}
    (hchain : AnswerChain (turningHttp3 a) world g redirects refreshes page) : refreshes = 0 := by
  induction hchain with
  | page _ => rfl
  | redirect _ _ ih => exact ih
  | refresh hretries _ _ => exact hretries.elim

theorem Meeting.refreshes_le {redirects refreshes : Nat} {page : Page}
    (hmeeting : Meeting a call world ctx validated redirects refreshes page) : refreshes ≤ 1 := by
  cases hmeeting with
  | http _ _ _ _ _ _ _ _ hchain => exact hchain.refreshes_le.1
  | http3 _ _ _ _ _ _ _ _ hchain => exact hchain.refreshes_http3.le.trans (Nat.zero_le _)

/-- How a call on a chain ends. -/
theorem Meeting.ends {redirects refreshes : Nat} {page : Page}
    (hmeeting : Meeting a call world ctx validated redirects refreshes page) :
    (((redirects + refreshes : Nat) : Int) ≤ ctx.request.budget.redirects ∧
      (request a call world (.initial ctx validated call)).1.map HttpResult.page = .ok page) ∨
    (ctx.request.budget.redirects < ((redirects + refreshes : Nat) : Int) ∧
      (request a call world (.initial ctx validated call)).1 = .error exhausted) := by
  have hmeets := request_meeting hmeeting
  unfold Meets turns at hmeets
  split at hmeets
  · rename_i result s hcall
    obtain ⟨hin, hpage⟩ := hmeets
    rw [hcall]
    exact .inl ⟨by omega, congrArg Except.ok hpage⟩
  · rename_i err s hcall
    obtain ⟨hout, herr⟩ := hmeets
    rw [hcall]
    exact .inr ⟨by omega, congrArg Except.error herr⟩

/-- **A chain that comes to a page is followed to it exactly when its redirects and its
refreshed tokens together are within the budget of redirects**; with more of them the call is
exhausted, even where the redirects alone are within the budget. -/
theorem returns_iff_within_redirects {redirects refreshes : Nat} {page : Page}
    (hmeeting : Meeting a call world ctx validated redirects refreshes page) :
    refreshes ≤ 1 ∧
    ((request a call world (.initial ctx validated call)).1.map HttpResult.page = .ok page ↔
      ((redirects + refreshes : Nat) : Int) ≤ ctx.request.budget.redirects) ∧
    ((request a call world (.initial ctx validated call)).1 = .error exhausted ↔
      ctx.request.budget.redirects < ((redirects + refreshes : Nat) : Int)) := by
  refine ⟨hmeeting.refreshes_le, ?_⟩
  obtain ⟨hbudget, hreturned⟩ | ⟨hbudget, hexhausted⟩ := hmeeting.ends
  · refine ⟨iff_of_true hreturned hbudget, iff_of_false (fun hexhausted => ?_) hbudget.not_gt⟩
    rw [hexhausted] at hreturned
    cases hreturned
  · refine ⟨iff_of_false (fun hreturned => ?_) hbudget.not_ge, iff_of_true hexhausted hbudget⟩
    rw [hexhausted] at hreturned
    cases hreturned

/-! ### A token that expires on the way -/

def tokenSession : OriginScopedSession where
  origin := "https://example.com"
  capabilityId := .oauth
  authenticationRef := "account"
  refreshRef := some "refresh"

def token : CredentialMaterial where
  origin := "https://example.com"
  capabilityId := "bearer_token"
  headers := (∅ : Dict String String).set "Authorization" "Bearer token"

def tokenContext (redirects : Int) : ExecutionContext where
  request := {target := "https://example.com/", authenticationRef := some "account", budget := {redirects}}
  sensitiveState := ((∅ : Dict String Secret).set "origin_scoped_session" (.session tokenSession)).set
    "credential_material" (.material token)

def tokenCall : HttpCall := {destination := "https://example.com/", credentialMode := .request}

/-- The token has expired and is refreshed, then the page has moved once. -/
def movedOnce : World where
  hop k := {answering ([{status := 401, reportsExpiredCredential := true}, redirecting 302 "/page"].getD k {status := 200})
    with refresh := .material token}

/-- What the call comes to on a budget of so many redirects. -/
def tokenReturned (redirects : Int) : Except HttpError HttpResult :=
  (request sampleAdapter tokenCall movedOnce (.initial (tokenContext redirects) ∅ tokenCall)).1

/-- Where the page has moved to. -/
def pageUrl : String := "https://example.com/page"

/-- A URL of the site, taken apart. -/
def pageParts (path : String) : SplitResult where
  scheme := "https".toList
  netloc := "example.com".toList
  path := path.toList
  query := []
  fragment := []

/-- The policy reads the URL of the site at this path. -/
structure AtPath (url path : String) : Prop where
  normal : normalizeUrl asciiCodecs url = some url
  parts : urlsplit asciiCodecs.toTables url.toList = some (pageParts path)
  checked : ∀ previous ∈ [none, some tokenCall.destination],
    (sampleAdapter.policy.checkDestination (pageParts path) previous).toOption = some ("example.com", 443)
  name : String.ofList (rstrip '.' (asciiCodecs.lower ((pageParts path).hostname asciiCodecs.toTables))) = "example.com"

theorem atPath_destination : AtPath tokenCall.destination "/" :=
  ⟨by decide +kernel, by decide +kernel, by decide +kernel, by decide +kernel⟩

theorem atPath_page : AtPath pageUrl "/page" :=
  ⟨by decide +kernel, by decide +kernel, by decide +kernel, by decide +kernel⟩

/-- The stage with a URL of the site let in. -/
def Stage.admitted (g : Stage) : Stage := {g with validated := g.validated.set "example.com" ["93.184.216.34"]}

theorem movedOnce_allowed (k : Nat) {g : Stage} {path : String} (hpath : AtPath g.current path)
    (hprevious : g.previous ∈ [none, some tokenCall.destination]) :
    Allowed sampleAdapter (movedOnce.hop k) g g.admitted := by
  obtain ⟨hnormal, hparts, hchecked, hname⟩ := hpath
  have hchecked' : sampleAdapter.policy.checkDestination (pageParts path) g.previous = .ok ("example.com", 443) :=
    Except.toOption_eq_some.mp (hchecked _ hprevious)
  have hresolved : sampleAdapter.policy.resolve (movedOnce.hop k).addresses "example.com" 443 = .ok ["93.184.216.34"] :=
    SafeUrlPolicy.resolve_eq_ok.mpr ⟨⟨"example.com".toList, rfl⟩, rfl⟩
  obtain ⟨decisions, heval⟩ := @SafeUrlPolicy.evaluate_accepts sampleAdapter.policy _ _ _ _ g.validated _ _ _ _ _ hnormal
    hparts hchecked' hresolved (List.cons_ne_nil _ _) (fun _ _ => rfl) rfl
  refine .intro g.current decisions _ (pageParts path) heval hparts ?_
  show ValidatedAddresses.of asciiCodecs (g.validated.set "example.com" ["93.184.216.34"])
    ((pageParts path).hostname asciiCodecs.toTables) ≠ []
  rw [ValidatedAddresses.of, hname, Dict.getD_set, if_pos rfl]
  exact List.cons_ne_nil _ _

/-- A turn of the chain asks for its URL with the token. -/
theorem movedOnce_answers (k : Nat) {g : Stage} {path : String} {response : Response} (hpath : AtPath g.current path)
    (hprevious : g.previous ∈ [none, some tokenCall.destination]) (hfresh : g.current ∉ g.visited)
    (hhost : (schedulerHost asciiCodecs g.current).isOk = true) (hscope : token.appliesTo asciiCodecs g.current = some true)
    (hcredential : Credentialed sampleAdapter tokenCall (movedOnce.hop k) g.admitted
      {g.admitted with credential := some token})
    (hcookies : g.cookieOrigin = none) (hdeadline : 0 < g.request.budget.deadlineSeconds)
    (hintent : g.request.intent ≠ "crawl")
    (hreply : (movedOnce.hop k).reply = .ok response) :
    Answers sampleAdapter tokenCall (movedOnce.hop k) g true response
      {g.admitted with credential := some token, visited := g.current :: g.visited} := by
  obtain ⟨hnormal, hparts, hchecked, hname⟩ := id hpath
  refine .intro _ _ false true response
    (.intro _ _ _ ⟨hhost, hdeadline, rfl⟩ (movedOnce_allowed k hpath hprevious) hcredential hfresh (.none hcookies))
    (.known (pageParts path) hparts fun hcrawl => hintent hcrawl.1) (.within token true rfl hscope)
    (fun h => by cases h) (fun h => by cases h) hreply

theorem token_refreshed (k : Nat) {g : Stage} (hfirst : g.refreshAttempted = false) (hmethod : g.method = "GET")
    (hsession : refreshSession g.context token = some tokenSession) :
    Refreshed sampleAdapter (movedOnce.hop k) g token token :=
  ⟨hfirst, by rw [hmethod]; rfl, rfl, ⟨tokenSession, hsession, by decide +kernel, by decide +kernel⟩, rfl, rfl, rfl⟩

theorem movedOnce_meeting (redirects : Int) :
    Meeting sampleAdapter tokenCall movedOnce (tokenContext redirects) ∅ 1 1
      {url := pageUrl, response := {status := 200}, body := []} := by
  have hscope : token.appliesTo asciiCodecs tokenCall.destination = some true := by decide +kernel
  have hscope' : token.appliesTo asciiCodecs pageUrl = some true := by decide +kernel
  have hhost : (schedulerHost asciiCodecs tokenCall.destination).isOk = true := by decide +kernel
  have hhost' : (schedulerHost asciiCodecs pageUrl).isOk = true := by decide +kernel
  have hdeadline : (0 : ℚ) < (tokenContext redirects).request.budget.deadlineSeconds := by
    show (0 : ℚ) < (tokenContext 0).request.budget.deadlineSeconds
    decide +kernel
  have hintent : (tokenContext redirects).request.intent ≠ "crawl" := by
    show (tokenContext 0).request.intent ≠ "crawl"
    decide
  obtain ⟨headers, hinitial⟩ : ∃ headers, initialRequest sampleAdapter tokenCall (tokenContext redirects) = .ok ("GET", headers) :=
    ⟨_, rfl⟩
  have hopens : Opens sampleAdapter tokenCall movedOnce (tokenContext redirects) "GET" headers := by
    refine ⟨?_, ?_, hdeadline, hinitial, (fun h => by cases h), (fun _ h => by cases h)⟩
    · show (0 : Int) < (tokenContext 0).remainingBudget .bytes
      decide +kernel
    · show (0 : Int) < (tokenContext 0).remainingBudget .decompressedBytes
      decide +kernel
  refine .http "GET" headers 1 1 _ (fun h => by cases h) rfl hopens ?_
  have hnew : tokenCall.destination ∉ ([] : List String) := List.not_mem_nil
  have hagain : tokenCall.destination ∉ [tokenCall.destination].filter (· ≠ tokenCall.destination) := by decide +kernel
  have hmoved : pageUrl ∉ tokenCall.destination :: [tokenCall.destination].filter (· ≠ tokenCall.destination) := by
    decide +kernel
  have hjoined : urljoin asciiCodecs.toTables tokenCall.destination.toList "/page".toList = some pageUrl.toList := by
    decide +kernel
  have hpage : String.ofList pageUrl.toList = pageUrl := String.ofList_toList
  -- The token has expired and is refreshed.
  refine .refresh ⟨_, true, _, movedOnce_answers 0 atPath_destination (List.mem_cons_self) hnew hhost hscope
    (.obtained token ⟨rfl, rfl, rfl⟩ rfl hscope rfl) rfl hdeadline hintent rfl,
    .intro token token rfl rfl rfl rfl rfl rfl (token_refreshed 0 rfl rfl rfl)⟩ ?_
  -- The page has moved.
  refine .redirect ⟨_, true, _, movedOnce_answers 1 atPath_destination (List.mem_cons_self) hagain hhost hscope
    (.settled fun hneeded => Option.some_ne_none _ hneeded.2.2) rfl hdeadline hintent rfl,
    .intro "/page" pageUrl.toList _ (by decide) rfl rfl hjoined (fun h => by cases h) rfl (.off rfl)⟩ ?_
  rw [hpage]
  -- The page.
  refine .page ⟨_, true, _, movedOnce_answers 2 atPath_page (List.mem_cons_of_mem _ List.mem_cons_self) hmoved hhost' hscope'
    (.settled fun hneeded => Option.some_ne_none _ hneeded.2.2) rfl hdeadline hintent rfl, ?_⟩
  refine .intro none (by decide) rfl (fun _ h => by cases h) (fun _ h => by cases h) ?_ rfl
  show ((0 : Nat) : Int) ≤ (tokenContext 0).remainingBudget .decompressedBytes
  decide +kernel

/-- Two redirects allow for one redirect and one refresh. -/
theorem returns_iff_within_redirects_two :
    (tokenReturned 2).map HttpResult.page = .ok {url := pageUrl, response := {status := 200}, body := []} :=
  (returns_iff_within_redirects (movedOnce_meeting 2)).2.1.mpr (by decide)

/-- **One redirect within a budget of one** is not followed to its page when the token expires
on the way: the repeated request has used the turn of the page. -/
theorem refresh_exhausts_redirects :
    Meeting sampleAdapter tokenCall movedOnce (tokenContext 1) ∅ 1 1 {url := pageUrl, response := {status := 200}, body := []} ∧
      ((1 : Nat) : Int) ≤ (tokenContext 1).request.budget.redirects ∧ tokenReturned 1 = .error exhausted := by
  refine ⟨movedOnce_meeting 1, by decide, ?_⟩
  obtain ⟨hbudget, -⟩ | ⟨-, hexhausted⟩ := (movedOnce_meeting 1).ends
  · exact absurd hbudget (by decide)
  · exact hexhausted

end Fetech.Http
