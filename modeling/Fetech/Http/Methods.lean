import Fetech.Http.Route
import Fetech.Http.Credentials

/-! The method of a call along its redirects.

A request that changes state is for the destination the call was approved for, so after
a redirect nothing but GET and HEAD may follow, without the body and without its content
type. The first answer decides (`Leaks`): a redirect that keeps the method is refused for
the body it would replay, and one without a body is not refused; a redirect that drops
the body takes its content type out of the headers of the hops, and not out of those the
client was opened with. -/
namespace Fetech.Http
open Lib Lib.Url Lib.Program

/-! ### What may follow a redirect -/

/-- The header names a content type. -/
def IsContentType (e : String × String) : Prop := sameHeader e.1 "Content-Type" = true

/-- A redirect that is followed with a GET. -/
def Switches (status : Nat) (method : String) : Prop :=
  status = 303 ∨ ((status = 301 ∨ status = 302) ∧ method = "POST")

/-- Only the destination of the call is asked to change anything, and what follows a
redirect is a GET or HEAD with nothing of a body that was dropped. -/
structure StaysSafe (a : HttpAdapter) (call : HttpCall) (sent : List Sent) : Prop where
  approved : ∀ before x after, sent = before ++ x :: after → isSafeMethod x.method = false →
    before = [] ∧ normalizeUrl a.codecs call.destination = some x.url
  redirected : ∀ before x after, sent = before ++ x :: after → (∃ y ∈ before, y.isRedirected = true) →
    isSafeMethod x.method = true ∧ x.body = none ∧
      (call.body ≠ none → ∀ e ∈ x.headers, IsContentType e → e ∉ call.extraHeaders.entries)

variable (a : HttpAdapter) (call : HttpCall) (world : World) (ctx : ExecutionContext)

/-- The first request changes state, and its answer is a redirect. -/
structure MutationRedirected (method : String) (headers : Dict String String) (response : Response) : Prop where
  transport : ctx.request.outputRequirements.contains "http_3" = false
  initial : initialRequest a call ctx = .ok (method, headers)
  mutating : isSafeMethod method = false
  reply : (world.hop 0).reply = .ok response
  status : 300 ≤ response.status ∧ response.status ≤ 399

/-- A first answer that takes the mutation, or the content type of its body, along. -/
inductive Leaks : Prop
  | replayed (method : String) (headers : Dict String String) (response : Response)
      (hredirected : MutationRedirected a call world ctx method headers response)
      (hswitch : ¬ Switches response.status method) (hbody : call.body = none)
      (hlogin : call.allowEphemeralLoginCookies = true → ¬ (response.status = 307 ∨ response.status = 308))
  | labelled (method : String) (headers : Dict String String) (response : Response)
      (hredirected : MutationRedirected a call world ctx method headers response)
      (hswitch : Switches response.status method) (hbody : call.body ≠ none) (e : String × String)
      (he : e ∈ call.extraHeaders.entries) (hname : IsContentType e)

variable {a call world ctx} {sent : List Sent} {x : Sent}

theorem StaysSafe.nil : StaysSafe a call [] :=
  ⟨fun before x after h => by simp at h, fun before x after h => by simp at h⟩

/-- The first request, to the destination of the call. -/
theorem StaysSafe.first (hurl : normalizeUrl a.codecs call.destination = some x.url) : StaysSafe a call [x] := by
  have hnil : StaysSafe a call [] := .nil
  refine ⟨fun before y after hsplit => ?_, fun before y after hsplit => ?_⟩
  · exact split_snoc hnil.approved (fun _ => ⟨rfl, hurl⟩) before y after hsplit
  · exact split_snoc hnil.redirected (fun hsome => by simp at hsome) before y after hsplit

/-- One request more that changes nothing. -/
theorem StaysSafe.snoc (h : StaysSafe a call sent) (hsafe : isSafeMethod x.method = true) (hbody : x.body = none)
    (hlabel : call.body ≠ none → ∀ e ∈ x.headers, IsContentType e → e ∉ call.extraHeaders.entries) :
    StaysSafe a call (sent ++ [x]) where
  approved := split_snoc h.approved fun hmutating => by simp [hsafe] at hmutating
  redirected := split_snoc h.redirected fun _ => ⟨hsafe, hbody, hlabel⟩

theorem StaysSafe.of_append {rest : List Sent} (h : StaysSafe a call (sent ++ rest)) : StaysSafe a call sent where
  approved before x after hsplit := h.approved before x (after ++ rest) (by simp [hsplit])
  redirected before x after hsplit := h.redirected before x (after ++ rest) (by simp [hsplit])

/-! ### The turns of a call -/

variable {h : Hop} {c c' : Core}

/-- The request of a turn is made of the core of the turn. -/
theorem Requested.sends (hrequested : Requested a call h c c') :
    ∃ x, c'.sent = c.sent ++ [x] ∧ x.method = c.method ∧ x.body = c.requestBody ∧ x.reply = h.reply ∧
      a.policy.Accepts h.addresses c.current c.previous x.url ∧ c'.method = c.method ∧ c'.requestBody = c.requestBody := by
  obtain ⟨c₁, headers, cookies, hprepared, -⟩ := hrequested
  have hkept := hprepared.kept'
  refine ⟨posted c₁ headers cookies h.reply, ?_, hkept.method, hkept.body, rfl, hkept.accepted, hkept.method, hkept.body⟩
  rw [← hkept.sent]
  rfl

/-- A turn that raised sent its request or sent nothing. -/
theorem Failed.sends (hfailed : Failed a call h c c') :
    c'.sent = c.sent ∨ ∃ c₁, Requested a call h c c₁ ∧ c'.sent = c₁.sent := by
  cases hfailed with
  | early url _ hstopped => exact .inl hstopped.sent
  | arrived c₁ visited cookies cookieOrigin harrived =>
    obtain ⟨url, _, -, hsettled⟩ := harrived
    obtain ⟨-, -, -, -, -, -, -, hsent, -⟩ := hsettled.fields
    exact .inl hsent
  | requested c₁ _ hrequested hstopped => exact .inr ⟨c₁, hrequested, hstopped.sent⟩

/-- Method and body after a redirect. -/
theorem Redirected.method {response : Response} (hredirected : Redirected a call h c response c') :
    (Switches response.status c.method ∧ c'.method = "GET" ∧ c'.requestBody = none) ∨
      (¬ Switches response.status c.method ∧ c'.method = c.method ∧ c'.requestBody = none ∧ c.requestBody = none ∧
        (call.allowEphemeralLoginCookies = true → ¬ (response.status = 307 ∨ response.status = 308))) := by
  obtain ⟨redirected, cookies, cookieOrigin, hbody, -, hreplay⟩ := hredirected
  by_cases hswitch : Switches response.status c.method
  · have heq : switched response.status c =
        {c with method := "GET", requestBody := none, headers := c.headers.erase "Content-Type"} := if_pos hswitch
    exact .inl ⟨hswitch, by rw [heq], hbody⟩
  · have heq : switched response.status c = c := if_neg hswitch
    rw [heq] at hbody
    exact .inr ⟨hswitch, by rw [heq], by rw [heq]; exact hbody, hbody, hreplay⟩

/-! ### Without a leak -/

section
variable {validated : ValidatedAddresses} {k : Nat}

/-- Between the turns of a call that does not leak, when `k` of them were taken: nothing
was sent yet, or there is nothing left to replay. -/
inductive Harmless (a : HttpAdapter) (call : HttpCall) (ctx : ExecutionContext) (validated : ValidatedAddresses) :
    Nat → Core → Prop
  | start (method : String) (headers : Dict String String) (hinitial : initialRequest a call ctx = .ok (method, headers))
      (hbody : isSafeMethod method = true → call.body = none) :
      Harmless a call ctx validated 0 (opened a call ctx validated method headers)
  | later (k : Nat) (c : Core) (hsafe : isSafeMethod c.method = true) (hbody : c.requestBody = none)
      (hlabel : call.body ≠ none → ∀ e ∈ call.extraHeaders.entries, ¬ IsContentType e) (hsent : StaysSafe a call c.sent) :
      Harmless a call ctx validated (k + 1) c

theorem Harmless.staysSafe (hs : Harmless a call ctx validated k c) : StaysSafe a call c.sent := by
  cases hs with
  | start => exact .nil
  | later _ _ _ _ _ hsent => exact hsent

theorem Harmless.requested (hs : Harmless a call ctx validated k c) (hrequested : Requested a call h c c') :
    StaysSafe a call c'.sent := by
  obtain ⟨x, hsent, hmethod, hbody, -, haccepted, -⟩ := hrequested.sends
  rw [hsent]
  cases hs with
  | start method headers => exact .first haccepted.normalized
  | later _ _ hsafe hnone hlabel hlog =>
    exact hlog.snoc (hmethod ▸ hsafe) (hbody.trans hnone) fun hdropped e _ hname he => hlabel hdropped e he hname

theorem Harmless.answered {response : Response} (hleaks : ¬ Leaks a call world ctx)
    (htransport : ctx.request.outputRequirements.contains "http_3" = false) (hh : h = world.hop k)
    (hs : Harmless a call ctx validated k c) (hrequested : Requested a call h c c') (hreply : h.reply = .ok response)
    {c'' : Core} (hanswered : Answered a call h c' response none c'') : Harmless a call ctx validated (k + 1) c'' := by
  have hsent := hs.requested hrequested
  obtain ⟨x, -, -, -, -, -, hmethod, hbody⟩ := hrequested.sends
  rw [← hanswered.sent] at hsent
  cases hanswered with
  | redirected _ hstatus hredirected =>
    have hafter := hredirected.method
    simp only [hmethod, hbody] at hafter
    have hnone : c''.requestBody = none := by
      obtain ⟨-, -, hnone⟩ | ⟨-, -, hnone, -⟩ := hafter
      · exact hnone
      · exact hnone
    have hstill : isSafeMethod c.method = true → isSafeMethod c''.method = true := by
      intro hsafe
      obtain ⟨-, hget, -⟩ | ⟨-, hsame, -⟩ := hafter
      · rw [hget]
        rfl
      · rw [hsame]
        exact hsafe
    cases hs with
    | start method headers hinitial hempty =>
      by_cases hsafe : isSafeMethod method = true
      · exact .later 0 _ (hstill hsafe) hnone (fun hdropped => absurd (hempty hsafe) hdropped) hsent
      · have hfirst : MutationRedirected a call world ctx method headers response :=
          ⟨htransport, hinitial, Bool.eq_false_iff.mpr hsafe, hh ▸ hreply, hstatus⟩
        obtain ⟨hswitch, hget, -⟩ | ⟨hswitch, -, -, hunbodied, hlogin⟩ := hafter
        · refine .later 0 _ (by rw [hget]; rfl) hnone (fun hdropped e he hname => hleaks ?_) hsent
          exact .labelled method headers response hfirst hswitch hdropped e he hname
        · exact absurd (.replayed method headers response hfirst hswitch hunbodied hlogin) hleaks
    | later _ _ hsafe _ hlabel => exact .later _ _ (hstill hsafe) hnone hlabel hsent
  | refreshed m m' y _ _ _ hasked =>
    have hsafe : isSafeMethod c.method = true := by
      rw [← hmethod, ← hasked.method]
      exact hasked.safe
    have hsafe' : isSafeMethod c'.method = true := hmethod ▸ hsafe
    cases hs with
    | start method headers _ hempty =>
      exact .later 0 _ hsafe' (hbody.trans (hempty hsafe)) (fun hdropped => absurd (hempty hsafe) hdropped) hsent
    | later _ _ _ hnone hlabel => exact .later _ _ hsafe' (hbody.trans hnone) hlabel hsent

theorem Harmless.hop {s : Exchange} (hleaks : ¬ Leaks a call world ctx)
    (htransport : ctx.request.outputRequirements.contains "http_3" = false)
    (hs : Harmless a call ctx validated k s.core) :
    (hop a call (world.hop k)).Meets s
      (fun r s' => if r.isSome then StaysSafe a call s'.sent else Harmless a call ctx validated (k + 1) s'.core)
      fun _ s' => StaysSafe a call s'.sent := by
  refine (hop_meets a call (world.hop k) s).mono ?_ ?_
  · rintro r t ⟨-, c', response, hrequested, hreply, hanswered⟩
    cases r with
    | some result =>
      cases hanswered
      exact hs.requested hrequested
    | none => exact hs.answered hleaks htransport rfl hrequested hreply hanswered
  · rintro _ t ⟨-, hfailed⟩
    show StaysSafe a call t.core.sent
    obtain hsame | ⟨c₁, hrequested, hsent⟩ := hfailed.sends
    · rw [hsame]
      exact hs.staysSafe
    · rw [hsent]
      exact hs.requested hrequested

end

/-! ### Over HTTP/3 -/

/-- Every request of an HTTP/3 call is a GET of its own headers. -/
def Gets (a : HttpAdapter) (sent : List Sent) : Prop :=
  ∀ x ∈ sent, x.method = "GET" ∧ x.body = none ∧ x.headers = [("User-Agent", a.userAgent)]

theorem Gets.staysSafe (h : Gets a sent) : StaysSafe a call sent := by
  have hmem : ∀ {before x after}, sent = before ++ x :: after → x ∈ sent := fun hsplit => by simp [hsplit]
  refine ⟨fun before x after hsplit hmutating => ?_, fun before x after hsplit _ => ?_⟩
  · rw [(h x (hmem hsplit)).1] at hmutating
    cases hmutating
  · obtain ⟨hmethod, hbody, hheaders⟩ := h x (hmem hsplit)
    refine ⟨by rw [hmethod]; rfl, hbody, fun _ e he hname => ?_⟩
    rw [hheaders, List.mem_singleton] at he
    rw [he] at hname
    exact absurd (show sameHeader "User-Agent" "Content-Type" = true from hname) (by decide)

theorem Gets.turn (h : Gets a c.sent) {hop : Hop} (hturn : Http3Turn a hop c c') : Gets a c'.sent := by
  cases hturn with
  | silent => exact h
  | sent url current previous redirectStatuses =>
    intro x hx
    obtain hold | hnew := List.mem_append.mp hx
    · exact h x hold
    · rw [List.mem_singleton.mp hnew]
      exact ⟨rfl, rfl, rfl⟩

/-! ### With a leak -/

/-- No credential names a content type of its own; those that do are refused when they
are made. -/
def CredentialsPlain (ctx : ExecutionContext) (world : World) : Prop :=
  ∀ m, Provided ctx world m → ∀ e ∈ m.headers.entries, ¬ IsContentType e

/-- Setting another header adds no content type. -/
theorem mem_of_set_label {d : Dict String String} {name value : String} {e : String × String}
    (he : e ∈ (d.set name value).entries) (hname : IsContentType e) (hother : sameHeader name "Content-Type" = false) :
    e ∈ d.entries := by
  have hget := (Dict.get?_eq_some_iff _ _ _).mpr he
  rw [Dict.get?_set] at hget
  split at hget
  · rename_i hsame
    rw [IsContentType, hsame, hother] at hname
    cases hname
  · exact (Dict.get?_eq_some_iff _ _ _).mp hget

theorem requestSpec_unlabelled {node : Option PlanNode} {method : String} {headers : Dict String String}
    (hok : requestSpec a node ctx = .ok (method, headers)) {e : String × String} (he : e ∈ headers.entries) :
    ¬ IsContentType e := by
  intro hname
  -- The headers every request has.
  have hbasic : e ∉ (((∅ : Dict String String).set "User-Agent" a.userAgent).set "Accept" "*/*").entries := by
    intro he
    have hagent := mem_of_set_label he hname (by decide)
    have hempty := mem_of_set_label hagent hname (by decide)
    cases hempty
  unfold requestSpec at hok
  simp only at hok
  split at hok
  · cases hok
    exact hbasic he
  split at hok
  · split at hok
    · cases hok
      exact hbasic he
    · split at hok <;> cases hok
  split at hok
  · cases hok
    have hlanguage := mem_of_set_label he hname (by decide)
    have haccept := mem_of_set_label hlanguage hname (by decide)
    have hagent := mem_of_set_label haccept hname (by decide)
    exact hbasic hagent
  split at hok
  · split at hok
    · cases hok
      exact hbasic (mem_of_set_label he hname (by decide))
    · cases hok
  · cases hok
    exact hbasic he

/-- The content types among the first headers are the caller's. -/
theorem initialRequest_labelled {method : String} {opening : Dict String String}
    (hok : initialRequest a call ctx = .ok (method, opening)) :
    (∀ e ∈ call.extraHeaders.entries, e ∈ opening.entries) ∧
      ∀ e ∈ opening.entries, IsContentType e → e ∈ call.extraHeaders.entries := by
  simp only [initialRequest, Except.bind_eq_ok] at hok
  obtain ⟨⟨m, headers⟩, hspec, m', -, -, -, hreturn⟩ := hok
  cases hreturn
  refine ⟨fun e he => ?_, fun e he hname => ?_⟩
  · exact (Dict.get?_eq_some_iff _ _ _).mp (Dict.get?_update_of_mem headers he)
  · obtain hold | hnew := Dict.get?_update ((Dict.get?_eq_some_iff _ _ _).mpr he)
    · exact absurd hname (requestSpec_unlabelled hspec ((Dict.get?_eq_some_iff _ _ _).mp hold))
    · exact hnew

/-- A content type the client was opened with stays with it, whatever the hop adds. -/
theorem mergeHeaders_labelled {client : List (String × String)} (update : List (String × String)) {e : String × String} (he : e ∈ client)
    (hname : IsContentType e) :
    ∃ e' ∈ mergeHeaders client update, IsContentType e' ∧ (e' = e ∨ e' ∈ update) := by
  by_cases hnamed : ∃ u ∈ update, sameHeader u.1 e.1 = true
  · obtain ⟨u, hu, hsame⟩ := hnamed
    refine ⟨u, List.mem_append_right _ hu, ?_, .inr hu⟩
    unfold IsContentType sameHeader at hname ⊢
    unfold sameHeader at hsame
    simp only [beq_iff_eq] at hname hsame ⊢
    exact hsame.trans hname
  · refine ⟨e, List.mem_append_left _ (List.mem_filter.mpr ⟨he, ?_⟩), hname, .inl rfl⟩
    simpa using hnamed

theorem Plain.mem {opening base : Dict String String} (hplain : Plain opening base) {e : String × String}
    (he : e ∈ base.entries) : e ∈ opening.entries := by
  obtain rfl | rfl := hplain
  · exact he
  · have hget := (Dict.get?_eq_some_iff _ _ _).mpr he
    rw [Dict.get?_erase] at hget
    split at hget
    · cases hget
    · exact (Dict.get?_eq_some_iff _ _ _).mp hget

theorem requestHeaders_labelled {m : CredentialMaterial} {e : String × String} (he : e ∈ m.requestHeaders.entries)
    (hname : IsContentType e) : e ∈ m.headers.entries := by
  unfold CredentialMaterial.requestHeaders at he
  split at he
  · exact he
  · exact mem_of_set_label he hname (by decide)

/-- The caller's content type goes with every request of the client. -/
theorem Carries.labelled {method : String} {opening : Dict String String} (h : Carries a opening x)
    (hinitial : initialRequest a call ctx = .ok (method, opening))
    (hplain : ∀ m, x.credential = some m → ∀ e ∈ m.headers.entries, ¬ IsContentType e) {e : String × String}
    (he : e ∈ call.extraHeaders.entries) (hname : IsContentType e) :
    ∃ e' ∈ x.headers, IsContentType e' ∧ e' ∈ call.extraHeaders.entries := by
  obtain ⟨hopening, hcaller⟩ := initialRequest_labelled hinitial
  have hclient : e ∈ clientHeaders a opening := List.mem_append_right _ (hopening e he)
  -- Whatever the hop adds under that name is the caller's too.
  have hkept : ∀ update : Dict String String, x.headers = mergeHeaders (clientHeaders a opening) update.entries →
      (∀ u ∈ update.entries, IsContentType u → u ∈ opening.entries) →
      ∃ e' ∈ x.headers, IsContentType e' ∧ e' ∈ call.extraHeaders.entries := by
    intro update hheaders hupdate
    obtain ⟨e', he', hname', hwhich⟩ := mergeHeaders_labelled update.entries hclient hname
    rw [← hheaders] at he'
    obtain rfl | hadded := hwhich
    · exact ⟨e', he', hname', he⟩
    · exact ⟨e', he', hname', hcaller e' (hupdate e' hadded hname') hname'⟩
  cases h with
  | plain base hbase hheaders => exact hkept base hheaders fun u hu _ => hbase.mem hu
  | credential base m hbase hheld _ hheaders =>
    refine hkept _ hheaders fun u hu hlabel => ?_
    obtain hold | hnew := Dict.get?_update ((Dict.get?_eq_some_iff _ _ _).mpr hu)
    · exact hbase.mem ((Dict.get?_eq_some_iff _ _ _).mp hold)
    · exact absurd hlabel (hplain m hheld u (requestHeaders_labelled hnew hlabel))
  | login base text hbase _ hheaders =>
    exact hkept _ hheaders fun u hu hlabel => hbase.mem (mem_of_set_label hu hlabel (by decide))

section
variable {validated : ValidatedAddresses} {k : Nat} {method : String} {opening : Dict String String} {response : Response}

/-- Between the turns of a call that leaks, when `k` of them were taken: the second
request is the one that should not be. -/
inductive Leaking (a : HttpAdapter) (call : HttpCall) (world : World) (ctx : ExecutionContext)
    (validated : ValidatedAddresses) (method : String) (opening : Dict String String) : Nat → Core → Prop
  | start : Leaking a call world ctx validated method opening 0 (opened a call ctx validated method opening)
  | followed (c : Core) (x : Sent) (first : Option CredentialMaterial) (hsent : c.sent = [x])
      (hanswer : x.isRedirected = true) (hscoped : Scoped a call world ctx opening first c)
      (hprovided : ∀ m, c.credential = some m → Provided ctx world m)
      (hwrong : isSafeMethod c.method = false ∨ call.body ≠ none ∧ ∃ e ∈ call.extraHeaders.entries, IsContentType e) :
      Leaking a call world ctx validated method opening 1 c
  | leaked (k : Nat) (c : Core) (hleaked : ¬ StaysSafe a call c.sent) :
      Leaking a call world ctx validated method opening (k + 2) c

/-- The first turn changes state, so a credential it holds was provided and not refreshed. -/
theorem Requested.provided (hmutating : isSafeMethod method = false)
    (hrequested : Requested a call (world.hop k) (opened a call ctx validated method opening) c') :
    ∀ m, c'.credential = some m → Provided ctx world m := by
  obtain ⟨c₁, headers, cookies, hprepared, -⟩ := hrequested
  have harrived : ∀ c₂, Arrived a call (world.hop k) (opened a call ctx validated method opening) c₂ →
      ∀ m, c₂.credential = some m → Provided ctx world m := by
    rintro c₂ ⟨url, _, -, hsettled⟩ m hm
    cases hsettled with
    | unchanged _ hc => simp [hc, opened, Exchange.core, Exchange.initial] at hm
    | obtained m' _ hobtained hc =>
      rw [hc] at hm
      cases hm
      obtain hcached | hresolved := hobtained
      · exact .inl hcached
      · exact .inr ⟨k, hresolved⟩
    | refreshed m' m'' x _ _ _ hasked =>
      have hsafe := hasked.safe
      rw [hasked.method] at hsafe
      exact absurd (hsafe.symm.trans hmutating) (by decide)
  cases hprepared with
  | kept c₂ h₂ => exact harrived c₂ h₂
  | withheld c₂ h₂ => exact harrived c₂ h₂

/-- Once something was sent, the credential of a call is settled. -/
theorem Prepared.credential {first : Option CredentialMaterial} (hscoped : Scoped a call world ctx opening first c)
    (hsent : c.sent ≠ []) (hprepared : Prepared a call h c c') : c'.credential = c.credential := by
  have harrived : ∀ c₂, Arrived a call h c c₂ → c₂.credential = c.credential := by
    rintro c₂ ⟨url, _, -, hsettled⟩
    cases hsettled with
    | unchanged _ hc => rw [hc]
    | obtained _ hunsettled => exact absurd (hscoped.unsettled hunsettled) hsent
    | refreshed _ _ _ hunsettled => exact absurd (hscoped.unsettled hunsettled) hsent
  cases hprepared with
  | kept c₂ h₂ => exact harrived c₂ h₂
  | withheld c₂ h₂ => exact harrived c₂ h₂

/-- The second request of a call that leaks is one that should not be. -/
theorem Leaking.second (hcredentials : CredentialsPlain ctx world)
    (hinitial : initialRequest a call ctx = .ok (method, opening))
    (hmode : call.allowEphemeralLoginCookies = true → call.credentialMode = .anonymous) {first : Option CredentialMaterial}
    (hsent : c.sent = [x]) (hanswer : x.isRedirected = true) (hscoped : Scoped a call world ctx opening first c)
    (hprovided : ∀ m, c.credential = some m → Provided ctx world m)
    (hwrong : isSafeMethod c.method = false ∨ call.body ≠ none ∧ ∃ e ∈ call.extraHeaders.entries, IsContentType e)
    (hrequested : Requested a call (world.hop k) c c') : ¬ StaysSafe a call c'.sent := by
  intro hsafe
  obtain ⟨c₁, headers, cookies, hprepared, hcookies⟩ := hrequested
  have hkept := hprepared.kept'
  have hcredential := hprepared.credential hscoped (by simp [hsent])
  obtain ⟨first', hscoped', -⟩ := hscoped.prepared hprepared
  have hcarries : Carries a opening (posted c₁ headers cookies (world.hop k).reply) := hscoped'.carries hmode hcookies
  have hlog : (post c₁ headers cookies (world.hop k).reply).sent =
      [x] ++ posted c₁ headers cookies (world.hop k).reply :: [] := by
    rw [← hsent, ← hkept.sent]
    rfl
  obtain ⟨hmethod, -, hlabel⟩ := hsafe.redirected [x] _ [] hlog ⟨x, List.mem_singleton_self x, hanswer⟩
  obtain hmutating | ⟨hbody, e, he, hname⟩ := hwrong
  · have hsame : (posted c₁ headers cookies (world.hop k).reply).method = c.method := hkept.method
    rw [hsame, hmutating] at hmethod
    cases hmethod
  · have hplain : ∀ m, (posted c₁ headers cookies (world.hop k).reply).credential = some m →
        ∀ e ∈ m.headers.entries, ¬ IsContentType e := by
      intro m hm
      exact hcredentials m (hprovided m (hcredential ▸ hm))
    obtain ⟨e', he', hname', hcaller⟩ := hcarries.labelled hinitial hplain he hname
    exact hlabel hbody e' he' hname' hcaller

theorem Leaking.requested (hcredentials : CredentialsPlain ctx world)
    (hinitial : initialRequest a call ctx = .ok (method, opening))
    (hmode : call.allowEphemeralLoginCookies = true → call.credentialMode = .anonymous)
    (hs : Leaking a call world ctx validated method opening k c) (hrequested : Requested a call (world.hop k) c c') :
    c'.sent.length ≤ 1 ∨ ¬ StaysSafe a call c'.sent := by
  cases hs with
  | start =>
    obtain ⟨x, hsent, -⟩ := hrequested.sends
    exact .inl (by rw [hsent]; rfl)
  | followed _ x first hsent hanswer hscoped hprovided hwrong =>
    exact .inr (Leaking.second hcredentials hinitial hmode hsent hanswer hscoped hprovided hwrong hrequested)
  | leaked _ _ hleaked =>
    obtain ⟨x, hsent, -⟩ := hrequested.sends
    exact .inr fun hsafe => hleaked (hsent ▸ hsafe).of_append

theorem Leaking.answered (hcredentials : CredentialsPlain ctx world)
    (hfirst : MutationRedirected a call world ctx method opening response)
    (hwrong : ¬ Switches response.status method ∨ call.body ≠ none ∧ ∃ e ∈ call.extraHeaders.entries, IsContentType e)
    (hmode : call.allowEphemeralLoginCookies = true → call.credentialMode = .anonymous)
    (hs : Leaking a call world ctx validated method opening k c) (hrequested : Requested a call (world.hop k) c c')
    {reply : Response} (hreply : (world.hop k).reply = .ok reply) {c'' : Core}
    (hanswered : Answered a call (world.hop k) c' reply none c'') :
    Leaking a call world ctx validated method opening (k + 1) c'' := by
  have hsent := hanswered.sent
  have hlater := hs.requested hcredentials hfirst.initial hmode hrequested
  cases hs with
  | start =>
    obtain rfl : reply = response := by
      rw [hfirst.reply] at hreply
      cases hreply
      rfl
    obtain ⟨x, hlog, -, -, hxreply, -, hmethod, -⟩ := hrequested.sends
    have hanswer : x.isRedirected = true := by
      simp only [Sent.isRedirected, hxreply, hreply]
      exact decide_eq_true hfirst.status
    obtain ⟨first', hscoped, -⟩ := Scoped.opened.requested hmode hrequested
    have hscoped' := hscoped.answered hanswered
    cases hanswered with
    | redirected _ _ hredirected =>
      have hcredential : c''.credential = c'.credential := by
        obtain ⟨redirected, cookies, cookieOrigin, -, -⟩ := hredirected
        exact (switched_kept reply.status _).2.2.2.1
      refine .followed c'' x first' (hsent.trans hlog) hanswer hscoped' ?_ (hwrong.imp_left fun hkept => ?_)
      · rw [hcredential]
        exact hrequested.provided hfirst.mutating
      · obtain ⟨hswitch, -⟩ | ⟨-, hsame, -⟩ := hredirected.method
        · have hswitch' : Switches reply.status c'.method := hswitch
          rw [hmethod] at hswitch'
          exact absurd hswitch' hkept
        · rw [hsame]
          exact (congrArg isSafeMethod hmethod).trans hfirst.mutating
    | refreshed _ _ _ hstatus =>
      have hredirect := hfirst.status
      omega
  | followed _ x first hone hanswer hscoped hprovided hbad =>
    exact .leaked 0 c'' (hsent ▸ Leaking.second hcredentials hfirst.initial hmode hone hanswer hscoped hprovided hbad hrequested)
  | leaked k _ hleaked =>
    obtain ⟨x, hlog, -⟩ := hrequested.sends
    refine .leaked (k + 1) c'' fun hsafe => hleaked ?_
    rw [hsent, hlog] at hsafe
    exact hsafe.of_append

/-- However a call that leaks ends. -/
def Leaked (a : HttpAdapter) (call : HttpCall) (s : Exchange) : Prop :=
  s.sent.length ≤ 1 ∨ ¬ StaysSafe a call s.sent

theorem Leaking.leaks (hs : Leaking a call world ctx validated method opening k c) :
    c.sent.length ≤ 1 ∨ ¬ StaysSafe a call c.sent := by
  cases hs with
  | start => exact .inl (Nat.zero_le 1)
  | followed _ x _ hsent => exact .inl (by rw [hsent]; rfl)
  | leaked _ _ hleaked => exact .inr hleaked

theorem Leaking.hop (hcredentials : CredentialsPlain ctx world)
    (hfirst : MutationRedirected a call world ctx method opening response)
    (hwrong : ¬ Switches response.status method ∨ call.body ≠ none ∧ ∃ e ∈ call.extraHeaders.entries, IsContentType e)
    (hmode : call.allowEphemeralLoginCookies = true → call.credentialMode = .anonymous) {s : Exchange}
    (hs : Leaking a call world ctx validated method opening k s.core) :
    (hop a call (world.hop k)).Meets s
      (fun r s' => if r.isSome then Leaked a call s' else Leaking a call world ctx validated method opening (k + 1) s'.core)
      fun _ s' => Leaked a call s' := by
  refine (hop_meets a call (world.hop k) s).mono ?_ ?_
  · rintro r t ⟨-, c', reply, hrequested, hreply, hanswered⟩
    cases r with
    | some result =>
      cases hanswered
      exact hs.requested hcredentials hfirst.initial hmode hrequested
    | none => exact hs.answered hcredentials hfirst hwrong hmode hrequested hreply hanswered
  · rintro _ t ⟨-, hfailed⟩
    show t.core.sent.length ≤ 1 ∨ ¬ StaysSafe a call t.core.sent
    obtain hsame | ⟨c₁, hrequested, hsent⟩ := hfailed.sends
    · rw [hsame]
      exact hs.leaks
    · rw [hsent]
      exact hs.requested hcredentials hfirst.initial hmode hrequested

end

/-- **Redirects do not change state**, exactly as far as the first answer lets them. When
it does not leak, whatever the servers answer after it, only the destination of the call
is asked to change anything, and every request after a redirect is a GET or HEAD without
the body and without its content type. When it leaks, a call that is followed any further
breaks this with its next request. -/
theorem redirects_stay_safe (a : HttpAdapter) (call : HttpCall) (world : World) (ctx : ExecutionContext)
    (validated : ValidatedAddresses) (hcredentials : CredentialsPlain ctx world) :
    (¬ Leaks a call world ctx → StaysSafe a call (exchange a call world ctx validated).sent) ∧
    (Leaks a call world ctx → 2 ≤ (exchange a call world ctx validated).sent.length →
      ¬ StaysSafe a call (exchange a call world ctx validated).sent) := by
  refine ⟨fun hleaks => ?_, fun hleaks hfollowed => ?_⟩
  · refine request_meets a call world ctx validated (E := fun s => StaysSafe a call s.sent)
      (I := fun k s => ctx.request.outputRequirements.contains "http_3" = false ∧
        Harmless a call ctx validated k s.core) (J := fun _ s => Gets a s.sent) .nil ?_ ?_ ?_ ?_ ?_ ?_
    · intro htransport _ s method headers hinitial hbody _ hcore
      exact ⟨htransport, hcore ▸ .start method headers hinitial hbody⟩
    · rintro k - s ⟨htransport, hs⟩
      refine (hs.hop hleaks htransport).mono (fun r t ht => ?_) fun _ _ ht => ht
      cases r with
      | some _ => exact ht
      | none => exact ⟨htransport, ht⟩
    · exact fun s hs => hs.2.staysSafe
    · intro _ _ s _ hcore x hx
      have hsent : s.sent = [] := congrArg Core.sent hcore
      simp [hsent] at hx
    · intro k _ s hs
      refine (hopHttp3_meets a (world.hop k) s).mono ?_ fun _ t ht => (hs.turn ht.2).staysSafe
      rintro r t ⟨-, hturn, -⟩
      have ht : Gets a t.sent := hs.turn hturn
      split
      · exact ht.staysSafe
      · exact ht
    · exact fun s hs => hs.staysSafe
  · obtain ⟨htransport, method, opening, response, hfirst, hwrong⟩ :
        ctx.request.outputRequirements.contains "http_3" = false ∧ ∃ method opening response,
          MutationRedirected a call world ctx method opening response ∧ (¬ Switches response.status method ∨
            call.body ≠ none ∧ ∃ e ∈ call.extraHeaders.entries, IsContentType e) := by
      cases hleaks with
      | replayed method headers response hfirst hkept =>
        exact ⟨hfirst.transport, method, headers, response, hfirst, .inl hkept⟩
      | labelled method headers response hfirst _ hbody e he hname =>
        exact ⟨hfirst.transport, method, headers, response, hfirst, .inr ⟨hbody, e, he, hname⟩⟩
    have hleaked : Leaked a call (exchange a call world ctx validated) := by
      refine request_meets a call world ctx validated (E := Leaked a call)
        (I := fun k s => (call.allowEphemeralLoginCookies = true → call.credentialMode = .anonymous) ∧
          Leaking a call world ctx validated method opening k s.core) (J := fun _ _ => False) ?_ ?_ ?_ ?_ ?_ ?_ ?_
      · exact .inl (Nat.zero_le 1)
      · intro _ hmode s method' headers hinitial _ _ hcore
        cases hfirst.initial.symm.trans hinitial
        exact ⟨hmode, hcore ▸ .start⟩
      · rintro k - s ⟨hmode, hs⟩
        refine (hs.hop hcredentials hfirst hwrong hmode).mono (fun r t ht => ?_) fun _ _ ht => ht
        cases r with
        | some _ => exact ht
        | none => exact ⟨hmode, ht⟩
      · exact fun s hs => hs.2.leaks
      · exact fun hhttp3 => absurd (htransport.symm.trans hhttp3) (by decide)
      · exact fun _ _ _ hfalse => hfalse.elim
      · exact fun _ hfalse => hfalse.elim
    obtain hshort | hunsafe := hleaked
    · omega
    · exact hunsafe

/-- An approved POST of a plan, which has no body. -/
def postCall : HttpCall where
  destination := "https://app.example.com/orders"
  node := some {id := "post", capabilityId := "http_post", adapter := "http", requiresApproval := true}

/-- A form that is sent. -/
def formCall : HttpCall where
  destination := "https://app.example.com/orders"
  methodOverride := some "POST"
  body := some "item=1".toUTF8.toList
  extraHeaders := (∅ : Dict String String).set "Content-Type" "application/x-www-form-urlencoded"
  credentialMode := .anonymous

def postContext : ExecutionContext :=
  {request := {target := "https://app.example.com/orders", approvedCapabilities := ["http_post"]}}

/-- The requests of a call that is answered once with this status, and sent on. -/
def redirectedSent (call : HttpCall) (status : Nat) : List Sent :=
  (exchange sampleAdapter call (scripted [redirecting status "https://cdn.example.net/orders"]) postContext ∅).sent

theorem scripted_plain (responses : List Response) : CredentialsPlain postContext (scripted responses) := by
  intro m hm
  obtain hcached | ⟨k, hresolved⟩ := hm
  · cases hcached
  · cases hresolved

/-- A 308 would send the form again, and is not followed. -/
theorem redirects_stay_safe_form : StaysSafe sampleAdapter formCall (redirectedSent formCall 308) := by
  refine (redirects_stay_safe sampleAdapter formCall _ postContext ∅ (scripted_plain _)).1 fun hleaks => ?_
  cases hleaks with
  | replayed _ _ _ _ _ hbody => cases hbody
  | labelled method _ response hfirst hswitch =>
    have hreply := hfirst.reply
    cases hreply
    obtain h | ⟨h | h, -⟩ := hswitch <;> cases h

theorem redirectedSent_post :
    (redirectedSent postCall 307).map (fun r => (r.method, r.isRedirected)) = [("POST", true), ("POST", false)] := by
  decide +kernel

theorem redirectedSent_form : (redirectedSent formCall 303).map (fun r => (r.isRedirected, r.headers.filter fun e =>
    sameHeader e.1 "Content-Type")) = [(true, [("Content-Type", "application/x-www-form-urlencoded")]),
      (false, [("Content-Type", "application/x-www-form-urlencoded")])] := by
  decide +kernel

/-- The POST is sent again where a 307 points, and the content type of a form goes on
with the GET after a 303. -/
theorem mutation_follows_redirect : ¬ StaysSafe sampleAdapter postCall (redirectedSent postCall 307) ∧
    ¬ StaysSafe sampleAdapter formCall (redirectedSent formCall 303) := by
  refine ⟨fun hsafe => ?_, fun hsafe => ?_⟩
  · have hlog := redirectedSent_post
    have hlength : (redirectedSent postCall 307).length = 2 := by simpa using congrArg List.length hlog
    obtain ⟨first, second, hsent⟩ := List.length_eq_two.mp hlength
    rw [hsent] at hlog hsafe
    simp only [List.map_cons, List.map_nil, List.cons.injEq, Prod.mk.injEq] at hlog
    have hmethod := (hsafe.redirected [first] second [] rfl ⟨first, List.mem_singleton_self _, hlog.1.2⟩).1
    rw [hlog.2.1.1] at hmethod
    cases hmethod
  · have hlog := redirectedSent_form
    have hlength : (redirectedSent formCall 303).length = 2 := by simpa using congrArg List.length hlog
    obtain ⟨first, second, hsent⟩ := List.length_eq_two.mp hlength
    rw [hsent] at hlog hsafe
    simp only [List.map_cons, List.map_nil, List.cons.injEq, Prod.mk.injEq] at hlog
    have hlabel := (hsafe.redirected [first] second [] rfl ⟨first, List.mem_singleton_self _, hlog.1.1⟩).2.2
    have hheader : ("Content-Type", "application/x-www-form-urlencoded") ∈ second.headers := by
      have hmem := hlog.2.1.2 ▸ List.mem_singleton_self ("Content-Type", "application/x-www-form-urlencoded")
      exact List.mem_of_mem_filter hmem
    exact hlabel (by decide) _ hheader rfl (by decide)

end Fetech.Http
