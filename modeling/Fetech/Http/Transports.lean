import Fetech.Http.Execute
import Fetech.Http.Methods
import Fetech.Http.Volumes

/-! The requests of a node over HTTP/1-2 and over HTTP/3 (`_request_spec`, `_request` and
`_request_http3` in `fetech/adapters/http.py`, `fetch` in `fetech/http3.py`).

A capability says which method a node asks with, which headers come with it and whether it
has to be approved. The loop of HTTP/1-2 sends what `_request_spec` says, up to redirects
that switch to GET; the loop of HTTP/3 does not ask it. -/
namespace Fetech.Http
open Lib Lib.Url Lib.Program

/-! ### What a capability asks for -/

/-- A header by which a capability differs from a plain request. -/
def isCapabilityHeader (e : String × String) : Bool :=
  ["Accept-Language", "Sec-Fetch-Mode", "Range"].contains e.1 || (e.1 == "Accept" && e.2 != "*/*")

def capabilityHeaders (headers : List (String × String)) : List (String × String) := headers.filter isCapabilityHeader

instance (status : Nat) (method : String) : Decidable (Switches status method) :=
  inferInstanceAs (Decidable (status = 303 ∨ ((status = 301 ∨ status = 302) ∧ method = "POST")))

/-- The method after the answer of a request. -/
def methodAfterAnswer (method : String) (x : Sent) : String :=
  match x.reply with
  | .ok response => if Switches response.status method then "GET" else method
  | .error _ => method

/-- Each request has the method that the redirects before it left, and the headers of the
capability and no others of that kind. -/
structure Follows (method : String) (headers : Dict String String) (sent : List Sent) : Prop where
  method : ∀ before x after, sent = before ++ x :: after → x.method = before.foldl methodAfterAnswer method
  headers : ∀ x ∈ sent, capabilityHeaders x.headers = capabilityHeaders headers.entries

variable (a : HttpAdapter) (node : PlanNode) (ctx : ExecutionContext)

/-- The requests are those of the capability, which is approved if it has to be. -/
inductive AsSpecified (sent : List Sent) : Prop
  | intro (method : String) (headers : Dict String String) (hspec : requestSpec a (some node) ctx = .ok (method, headers))
      (hfollows : Follows method headers sent)

theorem initialRequest_nodeCall : initialRequest a (nodeCall node ctx) ctx = requestSpec a (some node) ctx := by
  unfold initialRequest nodeCall overriddenMethod
  cases requestSpec a (some node) ctx with
  | error err => rfl
  | ok r => rfl

theorem capabilityHeaders_merge {headers update : List (String × String)}
    (h : ∀ e ∈ headers, isCapabilityHeader e = true → e ∈ update) :
    capabilityHeaders (mergeHeaders headers update) = capabilityHeaders update := by
  rw [capabilityHeaders, mergeHeaders, List.filter_append, List.filter_filter]
  have hnone : headers.filter (fun e => isCapabilityHeader e && !update.any fun u => sameHeader u.1 e.1) = [] := by
    refine List.filter_eq_nil_iff.mpr fun e he hboth => ?_
    obtain ⟨hspecific, hother⟩ := Bool.and_eq_true_iff.mp hboth
    have hmem := h e he hspecific
    have hany : (update.any fun u => sameHeader u.1 e.1) = true :=
      List.any_eq_true.mpr ⟨e, hmem, by simp [sameHeader]⟩
    rw [hany] at hother
    cases hother
  rw [hnone]
  rfl

/-- The headers a client opens with add nothing of the kind. -/
theorem mem_clientHeaders {headers : Dict String String} {e : String × String} (he : e ∈ clientHeaders a headers)
    (hspecific : isCapabilityHeader e = true) : e ∈ headers.entries := by
  obtain hdefault | hheader := List.mem_append.mp he
  · have hmem := List.mem_of_mem_filter hdefault
    simp only [List.mem_cons, List.not_mem_nil, or_false] at hmem
    obtain rfl | rfl | rfl | rfl := hmem <;> simp [isCapabilityHeader] at hspecific
  · exact hheader

/-! ### Over HTTP/1-2 -/

variable {a node ctx} {method : String} {headers : Dict String String} {sent : List Sent} {x : Sent}

theorem Follows.nil : Follows method headers [] :=
  ⟨fun before x after h => by simp at h, fun x hx => absurd hx List.not_mem_nil⟩

theorem Follows.snoc (h : Follows method headers sent) (hmethod : x.method = sent.foldl methodAfterAnswer method)
    (hheaders : capabilityHeaders x.headers = capabilityHeaders headers.entries) :
    Follows method headers (sent ++ [x]) where
  method := split_snoc h.method hmethod
  headers y hy := by
    obtain hold | hnew := List.mem_append.mp hy
    · exact h.headers y hold
    · rw [List.mem_singleton.mp hnew]
      exact hheaders

/-- Between the turns of a call without credential. -/
structure Specified (a : HttpAdapter) (ctx : ExecutionContext) (method : String) (headers : Dict String String)
    (c : Core) : Prop where
  request : c.request = ctx.request
  credential : c.credential = none
  carries : c.headers = headers
  client : c.client = clientHeaders a headers
  asks : c.method = c.sent.foldl methodAfterAnswer method
  follows : Follows method headers c.sent

variable {world : World} {validated : ValidatedAddresses} {h : Hop} {c c' : Core}

/-- Without an authentication reference no credential comes in. -/
theorem Prepared.anonymous {call : HttpCall} (hprepared : Prepared a call h c c') (hcredential : c.credential = none)
    (hpublic : c.request.authenticationRef = none) : c'.credential = none := by
  have harrived : ∀ c₁, Arrived a call h c c₁ → c₁.credential = none := by
    rintro c₁ ⟨url, _, -, hsettled⟩
    cases hsettled with
    | unchanged _ hc =>
      rw [hc]
      exact hcredential
    | obtained _ hunsettled =>
      have hsome : c.request.authenticationRef.isSome = true := hunsettled.2.1
      rw [hpublic] at hsome
      cases hsome
    | refreshed _ _ _ hunsettled =>
      have hsome : c.request.authenticationRef.isSome = true := hunsettled.2.1
      rw [hpublic] at hsome
      cases hsome
  cases hprepared with
  | kept c₁ h₁ => exact harrived c₁ h₁
  | withheld c₁ h₁ => exact harrived c₁ h₁

/-- The request of a turn is the one specified. -/
theorem Specified.requested (hs : Specified a ctx method headers c) (hpublic : ctx.request.authenticationRef = none)
    (hrequested : Requested a (nodeCall node ctx) h c c') :
    c'.request = ctx.request ∧ c'.credential = none ∧ c'.headers = headers ∧ c'.client = clientHeaders a headers ∧
      c'.method = c.method ∧ Follows method headers c'.sent ∧ ∃ x, c'.sent = c.sent ++ [x] ∧ x.reply = h.reply := by
  obtain ⟨c₁, headers', cookies, hprepared, hcookies⟩ := hrequested
  have hkept := hprepared.kept'
  have hnone := hprepared.anonymous hs.credential (hs.request ▸ hpublic)
  have hheaders : c₁.headers = headers := hkept.headers.trans hs.carries
  have hclient : c₁.client = clientHeaders a headers := hkept.client.trans hs.client
  have hsame : headers' = headers := by
    cases hcookies with
    | none => simp only [credentialHeaders, hnone, hheaders]
    | some _ _ hallowed => cases hallowed
  refine ⟨hkept.request.trans hs.request, hnone, hheaders, hclient, hkept.method, ?_,
    posted c₁ headers' cookies h.reply, ?_, rfl⟩
  · show Follows method headers (c₁.sent ++ [posted c₁ headers' cookies h.reply])
    rw [hkept.sent, hsame]
    refine hs.follows.snoc (hkept.method.trans hs.asks) ?_
    show capabilityHeaders (mergeHeaders c₁.client headers.entries) = _
    rw [hclient]
    exact capabilityHeaders_merge fun e he => mem_clientHeaders a he
  · show c₁.sent ++ [posted c₁ headers' cookies h.reply] = _
    rw [hkept.sent]

/-- No capability has a content type to drop. -/
theorem requestSpec_erase (hspec : requestSpec a (some node) ctx = .ok (method, headers)) :
    headers.erase "Content-Type" = headers := by
  have habsent : headers.get? "Content-Type" = none := by
    refine Option.eq_none_iff_forall_ne_some.mpr fun value hvalue => ?_
    exact requestSpec_unlabelled hspec ((Dict.get?_eq_some_iff _ _ _).mp hvalue) (by simp [IsContentType, sameHeader])
  exact Dict.erase_of_absent habsent

theorem switched_specified (status : Nat) (c : Core) :
    (switched status c).method = (if Switches status c.method then "GET" else c.method) ∧
      ((switched status c).headers = c.headers.erase "Content-Type" ∨ (switched status c).headers = c.headers) := by
  by_cases hswitch : Switches status c.method
  · have heq : switched status c = {c with method := "GET", requestBody := none, headers := c.headers.erase "Content-Type"} :=
      if_pos hswitch
    rw [if_pos hswitch, heq]
    exact ⟨rfl, .inl rfl⟩
  · have heq : switched status c = c := if_neg hswitch
    rw [if_neg hswitch, heq]
    exact ⟨rfl, .inr rfl⟩

theorem Specified.answered (hs : Specified a ctx method headers c) (hpublic : ctx.request.authenticationRef = none)
    (hspec : requestSpec a (some node) ctx = .ok (method, headers))
    (hrequested : Requested a (nodeCall node ctx) h c c') {response : Response} (hreply : h.reply = .ok response)
    {c'' : Core} (hanswered : Answered a (nodeCall node ctx) h c' response none c'') :
    Specified a ctx method headers c'' := by
  obtain ⟨hrequest, hcredential, hheaders, hclient, hmethod, hfollows, x, hx, hxreply⟩ := hs.requested hpublic hrequested
  have hsent := hanswered.sent
  cases hanswered with
  | redirected _ hstatus hredirected =>
    have hlog : c''.sent = c.sent ++ [x] := hsent.trans hx
    have hnext : c''.sent.foldl methodAfterAnswer method = if Switches response.status c.method then "GET" else c.method := by
      rw [hlog, List.foldl_append, ← hs.asks]
      simp only [List.foldl_cons, List.foldl_nil, methodAfterAnswer, hxreply, hreply]
    rw [← hsent] at hfollows
    obtain ⟨redirected, cookies, cookieOrigin⟩ := hredirected
    obtain ⟨hkclient, hkrequest, -, hkcredential, -⟩ :=
      switched_kept response.status {c' with redirectStatuses := c'.redirectStatuses ++ [response.status]}
    obtain ⟨hkmethod, hkheaders⟩ :=
      switched_specified response.status {c' with redirectStatuses := c'.redirectStatuses ++ [response.status]}
    refine ⟨hkrequest.trans hrequest, hkcredential.trans hcredential, ?_, hkclient.trans hclient, ?_, hfollows⟩
    · obtain herased | hsame := hkheaders
      · refine herased.trans ?_
        show c'.headers.erase "Content-Type" = headers
        rw [hheaders, requestSpec_erase hspec]
      · exact hsame.trans hheaders
    · rw [hnext, ← hmethod]
      exact hkmethod
  | refreshed m m' y _ hheld =>
    rw [hcredential] at hheld
    cases hheld

theorem Specified.hop {s : Exchange} (hs : Specified a ctx method headers s.core)
    (hpublic : ctx.request.authenticationRef = none) (hspec : requestSpec a (some node) ctx = .ok (method, headers)) :
    (hop a (nodeCall node ctx) h).Meets s
      (fun r t => if r.isSome then Follows method headers t.sent else Specified a ctx method headers t.core)
      fun _ t => Follows method headers t.sent := by
  have hlog : ∀ {c'}, Requested a (nodeCall node ctx) h s.core c' → Follows method headers c'.sent := by
    intro c' hrequested
    obtain ⟨-, -, -, -, -, hfollows, -⟩ := hs.requested hpublic hrequested
    exact hfollows
  refine (hop_meets a (nodeCall node ctx) h s).mono ?_ ?_
  · rintro r t ⟨-, c', response, hrequested, hreply, hanswered⟩
    cases r with
    | some result =>
      cases hanswered
      exact hlog hrequested
    | none => exact hs.answered hpublic hspec hrequested hreply hanswered
  · rintro _ t ⟨-, hfailed⟩
    show Follows method headers t.core.sent
    obtain hsame | ⟨c₁, hrequested, hsent⟩ := hfailed.sends
    · rw [hsame]
      exact hs.follows
    · rw [hsent]
      exact hlog hrequested

/-- **Over HTTP/1-2 every request is the one of the capability**: whatever a public call has
sent when it ends, its capability asked for, approved if it had to be. -/
theorem specified_over_http (hhttp : ctx.request.outputRequirements.contains "http_3" = false)
    (hpublic : ctx.request.authenticationRef = none)
    (hsent : (exchange a (nodeCall node ctx) world ctx validated).sent ≠ []) :
    AsSpecified a node ctx (exchange a (nodeCall node ctx) world ctx validated).sent := by
  cases hspec : requestSpec a (some node) ctx with
  | error err =>
    refine absurd ?_ hsent
    refine request_meets a (nodeCall node ctx) world ctx validated (I := fun _ _ => False) (J := fun _ _ => False)
      (E := fun s => s.sent = []) rfl ?_ (fun _ _ _ h => h.elim) (fun _ h => h.elim) ?_ (fun _ _ _ h => h.elim)
      fun _ h => h.elim
    · intro _ _ _ method headers hinitial
      rw [initialRequest_nodeCall, hspec] at hinitial
      cases hinitial
    · intro hhttp3
      rw [hhttp] at hhttp3
      cases hhttp3
  | ok spec =>
    obtain ⟨method, headers⟩ := spec
    refine .intro method headers hspec ?_
    refine request_meets a (nodeCall node ctx) world ctx validated (I := fun _ s => Specified a ctx method headers s.core)
      (J := fun _ _ => False) (E := fun s => Follows method headers s.sent) .nil ?_ ?_ (fun _ hs => hs.follows) ?_
      (fun _ _ _ h => h.elim) fun _ h => h.elim
    · intro _ _ s method' headers' hinitial _ _ hcore
      rw [initialRequest_nodeCall, hspec] at hinitial
      cases hinitial
      rw [hcore]
      exact ⟨rfl, rfl, rfl, rfl, rfl, .nil⟩
    · exact fun _ _ _ hs => hs.hop hpublic hspec
    · intro hhttp3
      rw [hhttp] at hhttp3
      cases hhttp3

/-! ### Over HTTP/3 -/

theorem gets_over_http3 (hhttp3 : ctx.request.outputRequirements.contains "http_3" = true) :
    Gets a (exchange a (nodeCall node ctx) world ctx validated).sent := by
  refine request_meets a (nodeCall node ctx) world ctx validated (I := fun _ _ => False) (J := fun _ s => Gets a s.sent)
    (E := fun s => Gets a s.sent) (fun _ hx => absurd hx List.not_mem_nil) ?_ (fun _ _ _ h => h.elim) (fun _ h => h.elim)
    ?_ ?_ fun _ h => h
  · intro hhttp
    rw [hhttp3] at hhttp
    cases hhttp
  · intro _ _ s _ hcore
    have hnil : s.sent = [] := congrArg Core.sent hcore
    rw [hnil]
    exact fun _ hx => absurd hx List.not_mem_nil
  · intro k _ s hs
    refine (hopHttp3_meets a (world.hop k) s).mono ?_ fun _ t ht => Gets.turn hs ht.2
    rintro r t ⟨-, hturn, -⟩
    have hgets : Gets a t.sent := Gets.turn hs hturn
    cases r with
    | some result => exact hgets
    | none => exact hgets

theorem foldl_get (sent : List Sent) : sent.foldl methodAfterAnswer "GET" = "GET" := by
  induction sent with
  | nil => rfl
  | cons x rest ih =>
    have hget : methodAfterAnswer "GET" x = "GET" := by
      unfold methodAfterAnswer
      split
      · exact ite_self _
      · rfl
    rw [List.foldl_cons, hget, ih]

/-- Every other capability is a plain GET. -/
theorem requestSpec_plain (hplain : node.capabilityId ∉ ["http_head", "http_post", "browser_header_http", "range_request"]) :
    ∃ headers, requestSpec a (some node) ctx = .ok ("GET", headers) ∧ capabilityHeaders headers.entries = [] := by
  simp only [List.mem_cons, List.not_mem_nil, or_false, not_or] at hplain
  obtain ⟨hhead, hpost, hbrowser, hrange⟩ := hplain
  refine ⟨((∅ : Dict String String).set "User-Agent" a.userAgent).set "Accept" "*/*", ?_, ?_⟩
  · simp only [requestSpec, Option.map_some, Option.getD_some, if_neg hhead, if_neg hpost, if_neg hbrowser, if_neg hrange]
  · refine List.filter_eq_nil_iff.mpr ?_
    rintro ⟨name, value⟩ hmem hspecific
    have hget := (Dict.get?_eq_some_iff _ _ _).mpr hmem
    rw [Dict.get?_set, Dict.get?_set, Dict.get?_empty] at hget
    split at hget
    · rename_i haccept
      cases hget
      rw [haccept] at hspecific
      revert hspecific
      decide
    · split at hget
      · rename_i hagent
        rw [hagent] at hspecific
        revert hspecific
        simp [isCapabilityHeader]
      · cases hget

/-- A header of a capability sets its request apart. -/
theorem capabilityHeaders_ne_nil {name value : String} (hget : headers.get? name = some value)
    (hspecific : isCapabilityHeader (name, value) = true) : capabilityHeaders headers.entries ≠ [] :=
  List.ne_nil_of_mem (List.mem_filter.mpr ⟨(Dict.get?_eq_some_iff _ _ _).mp hget, hspecific⟩)

/-- What sets a capability apart from a plain GET. -/
theorem plain_of_requestSpec (hspec : requestSpec a (some node) ctx = .ok (method, headers)) (hget : method = "GET")
    (hheaders : capabilityHeaders headers.entries = []) :
    node.capabilityId ∉ ["http_head", "http_post", "browser_header_http", "range_request"] := by
  simp only [requestSpec, Option.map_some, Option.getD_some] at hspec
  split at hspec
  · obtain ⟨hhead, -⟩ := Prod.mk.inj (Except.ok.inj hspec)
    rw [hget] at hhead
    exact absurd hhead (by decide)
  · rename_i hhead
    split at hspec
    · split at hspec
      · obtain ⟨hpost, -⟩ := Prod.mk.inj (Except.ok.inj hspec)
        rw [hget] at hpost
        exact absurd hpost (by decide)
      · split at hspec <;> cases hspec
    · rename_i hpost
      split at hspec
      · obtain ⟨-, hbrowser⟩ := Prod.mk.inj (Except.ok.inj hspec)
        have hmode : headers.get? "Sec-Fetch-Mode" = some "navigate" := by
          rw [← hbrowser, Dict.get?_set, if_pos rfl]
        exact absurd hheaders (capabilityHeaders_ne_nil hmode (by decide))
      · rename_i hbrowser
        split at hspec
        · split at hspec
          · obtain ⟨-, hranged⟩ := Prod.mk.inj (Except.ok.inj hspec)
            have hrange : headers.get? "Range" = some (ctx.request.metadata.getD "range" "bytes=0-1023") := by
              rw [← hranged, Dict.get?_set, if_pos rfl]
            exact absurd hheaders (capabilityHeaders_ne_nil hrange rfl)
          · cases hspec
        · rename_i hrange
          simp only [List.mem_cons, List.not_mem_nil, or_false, not_or]
          exact ⟨hhead, hpost, hbrowser, hrange⟩

/-- A plain GET follows no capability but a plain one. -/
theorem Gets.plain (hgets : Gets a sent) (hsent : sent ≠ []) (hspecified : AsSpecified a node ctx sent) :
    node.capabilityId ∉ ["http_head", "http_post", "browser_header_http", "range_request"] := by
  obtain ⟨first, rest, rfl⟩ := List.exists_cons_of_ne_nil hsent
  obtain ⟨method, headers, hspec, hfollows⟩ := hspecified
  obtain ⟨hget, -, hheaders⟩ := hgets first (List.mem_cons_self ..)
  refine plain_of_requestSpec hspec ?_ ?_
  · exact (hfollows.method [] first rest rfl).symm.trans hget
  · rw [← hfollows.headers first (List.mem_cons_self ..), hheaders]
    rfl

theorem sent_over_http3 (hhttp3 : ctx.request.outputRequirements.contains "http_3" = true) {result : HttpResult}
    (hreturns : (request a (nodeCall node ctx) world (.initial ctx validated (nodeCall node ctx))).1 = .ok result) :
    (exchange a (nodeCall node ctx) world ctx validated).sent ≠ [] := by
  have hafter := (after_iff _).mp (request_after a (nodeCall node ctx) world ctx validated) result
    (exchange a (nodeCall node ctx) world ctx validated) (Prod.ext hreturns rfl)
  rw [if_pos hhttp3] at hafter
  obtain ⟨-, -, ⟨last, -, hlast, -⟩, -⟩ := hafter
  intro hnil
  rw [hnil] at hlast
  cases hlast

/-- **Over HTTP/3 a call that returns has sent what its capability asks for exactly if that is a
plain GET**; a HEAD, a POST, approved or not, the headers of a browser and a range are replaced
by one. -/
theorem specified_over_http3_iff (hhttp3 : ctx.request.outputRequirements.contains "http_3" = true) {result : HttpResult}
    (hreturns : (request a (nodeCall node ctx) world (.initial ctx validated (nodeCall node ctx))).1 = .ok result) :
    AsSpecified a node ctx (exchange a (nodeCall node ctx) world ctx validated).sent ↔
      node.capabilityId ∉ ["http_head", "http_post", "browser_header_http", "range_request"] := by
  have hgets : Gets a (exchange a (nodeCall node ctx) world ctx validated).sent := gets_over_http3 hhttp3
  refine ⟨hgets.plain (sent_over_http3 hhttp3 hreturns), fun hplain => ?_⟩
  generalize (exchange a (nodeCall node ctx) world ctx validated).sent = sent at hgets
  obtain ⟨headers, hspec, hnone⟩ : ∃ headers, requestSpec a (some node) ctx = .ok ("GET", headers) ∧
      capabilityHeaders headers.entries = [] := requestSpec_plain hplain
  refine .intro "GET" headers hspec ⟨fun before x after hsplit => ?_, fun x hx => ?_⟩
  · rw [foldl_get]
    exact (hgets x (by rw [hsplit]; simp)).1
  · rw [hnone, (hgets x hx).2.2]
    rfl

/-! ### A page over HTTP/3 -/

/-- A public page is asked for over HTTP/3. -/
def http3Context : ExecutionContext := {request := {target := "https://example.com/", outputRequirements := ["http_3"]}}

def http3Node (capabilityId : String) : PlanNode := {id := "acquire", capabilityId, adapter := "http"}

def http3World : World := {hop := fun _ => {answering {status := 200} with http3 := .ok {status := 200}}}

def http3Returned (capabilityId : String) : Except HttpError HttpResult :=
  (request sampleAdapter (nodeCall (http3Node capabilityId) http3Context) http3World
    (.initial http3Context ∅ (nodeCall (http3Node capabilityId) http3Context))).1

def http3Sent (capabilityId : String) : List Sent :=
  (exchange sampleAdapter (nodeCall (http3Node capabilityId) http3Context) http3World http3Context ∅).sent

theorem specified_over_http3_iff_get : AsSpecified sampleAdapter (http3Node "http_get") http3Context (http3Sent "http_get") := by
  have hreturns : (http3Returned "http_get").toOption.isSome = true := by decide +kernel
  obtain ⟨result, hresult⟩ := Option.isSome_iff_exists.mp hreturns
  exact (specified_over_http3_iff (by decide) (Except.toOption_eq_some.mp hresult)).mpr (by decide)

/-- A capability that is no plain GET is not what goes out. -/
theorem not_specified_over_http3 {capabilityId : String} (hreturns : (http3Returned capabilityId).toOption.isSome = true)
    (hid : capabilityId ∈ ["http_head", "http_post", "browser_header_http", "range_request"]) :
    ¬AsSpecified sampleAdapter (http3Node capabilityId) http3Context (http3Sent capabilityId) := by
  intro hspecified
  obtain ⟨result, hresult⟩ := Option.isSome_iff_exists.mp hreturns
  have hsent := sent_over_http3 (by decide) (Except.toOption_eq_some.mp hresult)
  exact (gets_over_http3 (by decide)).plain hsent hspecified hid

/-- **A POST that was not approved, and a HEAD, go out as a GET** and return its page. -/
theorem http3_ignores_capability :
    ((http3Returned "http_post").toOption.isSome = true ∧
      ¬AsSpecified sampleAdapter (http3Node "http_post") http3Context (http3Sent "http_post")) ∧
    (http3Returned "http_head").toOption.isSome = true ∧
      ¬AsSpecified sampleAdapter (http3Node "http_head") http3Context (http3Sent "http_head") := by
  have hposted : (http3Returned "http_post").toOption.isSome = true := by decide +kernel
  have hheaded : (http3Returned "http_head").toOption.isSome = true := by decide +kernel
  exact ⟨⟨hposted, not_specified_over_http3 hposted (by decide)⟩, hheaded, not_specified_over_http3 hheaded (by decide)⟩

end Fetech.Http
