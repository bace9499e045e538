import Fetech.Http.Route
import Fetech.Http.Tracks

/-! The body of a call: it goes out once, and by the method of the call.

Until the first request the method and the body of the call wait in the core, and after it
no body is left (`Route.spent`). A request that was sent with a body is the first of its
call. -/
namespace Fetech.Http
open Lib Lib.Url Lib.Program

variable {a : HttpAdapter} {call : HttpCall} {world : World} {ctx : ExecutionContext} {validated : ValidatedAddresses}

/-- A request that carries the body of the call, by its method. -/
def Bears (a : HttpAdapter) (call : HttpCall) (ctx : ExecutionContext) (x : Sent) : Prop :=
  x.body = call.body ∧ ∃ headers, initialRequest a call ctx = .ok (x.method, headers)

/-- Between two turns: what waits to be sent, and what was. -/
structure Carried (a : HttpAdapter) (call : HttpCall) (ctx : ExecutionContext) (c : Core) : Prop where
  waiting : c.sent = [] → c.requestBody = call.body ∧ ∃ headers, initialRequest a call ctx = .ok (c.method, headers)
  posted : ∀ x ∈ c.sent, x.body ≠ none → Bears a call ctx x

variable {k : Nat} {c c' : Core} {s : Exchange}

theorem Requested.posted_eq {h : Hop} (hrequested : Requested a call h c c') :
    ∃ x, c'.sent = c.sent ++ [x] ∧ x.body = c.requestBody ∧ x.method = c.method := by
  obtain ⟨c₁, headers, cookies, hprepared, -⟩ := hrequested
  have hkept := hprepared.kept'
  refine ⟨posted c₁ headers cookies h.reply, ?_, hkept.body, hkept.method⟩
  rw [← hkept.sent]
  rfl

/-- What is sent next carries the body if it has one: nothing was sent before it. -/
theorem Carried.requested {h : Hop} (hc : Carried a call ctx c) (hspent : c.sent ≠ [] → c.requestBody = none)
    (hrequested : Requested a call h c c') : ∀ x ∈ c'.sent, x.body ≠ none → Bears a call ctx x := by
  obtain ⟨y, hsent, hbody, hmethod⟩ := hrequested.posted_eq
  rw [hsent]
  intro x hx hnonempty
  rcases List.mem_append.mp hx with hold | hnew
  · exact hc.posted x hold hnonempty
  · rw [List.mem_singleton.mp hnew] at hnonempty ⊢
    have hfirst : c.sent = [] := by
      by_contra hlater
      exact hnonempty (hbody.trans (hspent hlater))
    obtain ⟨hwaits, headers, hinitial⟩ := hc.waiting hfirst
    exact ⟨hbody.trans hwaits, headers, hmethod ▸ hinitial⟩

theorem Carried.failed {h : Hop} (hc : Carried a call ctx c) (hspent : c.sent ≠ [] → c.requestBody = none)
    (hfailed : Failed a call h c c') : ∀ x ∈ c'.sent, x.body ≠ none → Bears a call ctx x := by
  cases hfailed with
  | early url _ hstopped =>
    rw [hstopped.sent]
    exact hc.posted
  | arrived c₁ visited cookies cookieOrigin harrived =>
    obtain ⟨url, _, -, hsettled⟩ := harrived
    obtain ⟨-, -, -, -, -, -, -, hsent, -⟩ := hsettled.fields
    show ∀ x ∈ c₁.sent, _
    rw [hsent]
    exact hc.posted
  | requested c₁ _ hrequested hstopped =>
    rw [hstopped.sent]
    exact hc.requested hspent hrequested

/-- One turn of the loop. -/
theorem Carried.hop (hs : Carried a call ctx s.core) (hroute : OnRoute a call world k s) :
    (hop a call (world.hop k)).Meets s
      (fun _ s' => Carried a call ctx s'.core)
      fun _ s' => ∀ x ∈ s'.sent, x.body ≠ none → Bears a call ctx x := by
  have hspent : s.core.sent ≠ [] → s.core.requestBody = none := hroute.route.spent
  apply (hop_meets a call (world.hop k) s).mono
  · intro r t ht
    obtain ⟨-, c', response, hrequested, -, hanswered⟩ := ht
    have hposted := hs.requested hspent hrequested
    rw [← hanswered.sent] at hposted
    refine ⟨fun hnothing => ?_, hposted⟩
    obtain ⟨x, hsent, -⟩ := hrequested.posted_eq
    rw [hanswered.sent, hsent] at hnothing
    simp at hnothing
  · intro _ t ht
    exact hs.failed hspent ht.2

/-- Over HTTP/3 nothing has a body. -/
theorem bodiless_turn {h : Hop} (hc : ∀ x ∈ c.sent, x.body = none) (hturn : Http3Turn a h c c') :
    ∀ x ∈ c'.sent, x.body = none := by
  cases hturn with
  | silent => exact hc
  | sent =>
    intro x hx
    rcases List.mem_append.mp hx with hold | hnew
    · exact hc x hold
    · rw [List.mem_singleton.mp hnew]
      rfl

/-- **The body of a call is sent at most once**: with the first request, to the destination of the
call and by its method. -/
theorem exchange_body {before after : List Sent} {x : Sent} (hsplit : (exchange a call world ctx validated).sent = before ++ x :: after)
    (hbody : x.body ≠ none) : before = [] ∧ normalizeUrl a.codecs call.destination = some x.url ∧ Bears a call ctx x := by
  obtain ⟨hfirst, hurl⟩ := (exchange_routed a call world ctx validated).lawful.body before x after hsplit hbody
  refine ⟨hfirst, hurl, ?_⟩
  suffices hcarried : ∀ x ∈ (exchange a call world ctx validated).sent, x.body ≠ none → Bears a call ctx x by
    apply hcarried x _ hbody
    rw [hsplit]
    exact List.mem_append_right _ List.mem_cons_self
  apply request_meets a call world ctx validated (I := fun k s => OnRoute a call world k s ∧ Carried a call ctx s.core)
    (J := fun _ s => ∀ x ∈ s.sent, x.body = none) (E := fun s => ∀ x ∈ s.sent, x.body ≠ none → Bears a call ctx x)
  · exact List.forall_mem_nil _
  · intro _ _ s method headers hinitial hsafe hrobots hcore
    refine ⟨.opened hsafe hrobots hcore, ?_⟩
    rw [hcore]
    exact ⟨fun _ => ⟨rfl, headers, hinitial⟩, List.forall_mem_nil _⟩
  · intro k hk s hs
    apply ((hs.1.hop hk).and (hs.2.hop hs.1)).mono
    · intro r t ht
      cases r with
      | some result => exact ht.2.posted
      | none => exact ⟨ht.1, ht.2⟩
    · exact fun _ t ht => ht.2
  · exact fun s hs => hs.2.posted
  · intro _ _ s _ hcore
    have hsent : s.sent = [] := congrArg Core.sent hcore
    rw [hsent]
    exact List.forall_mem_nil _
  · intro k hk s hs
    have hbodiless : ∀ {t : Exchange}, Http3Turn a (world.hop k) s.core t.core → ∀ x ∈ t.sent, x.body = none :=
      fun hturn => bodiless_turn (c := s.core) hs hturn
    apply (hopHttp3_meets a (world.hop k) s).mono
    · intro r t ht
      cases r with
      | some result => exact fun x hx hne => absurd (hbodiless ht.2.1 x hx) hne
      | none => exact hbodiless ht.2.1
    · exact fun _ t ht x hx hne => absurd (hbodiless ht.2 x hx) hne
  · exact fun s hs x hx hne => absurd (hs x hx) hne

/-- A call leaves the request of its context alone. -/
theorem exchange_request : (exchange a call world ctx validated).context.request = ctx.request := by
  have htracks := (request_tracks a call world).meets (.initial ctx validated call)
  exact htracks.state.request

end Fetech.Http
