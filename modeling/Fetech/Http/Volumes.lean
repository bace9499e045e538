import Fetech.Http.Quiet
import Fetech.Http.Turns

/-! How many bytes a call takes in (the body loop of `HTTPAdapter._request` and
`_enforce_robots` in `fetech/adapters/http.py`).

The bounds are checked when a decoded chunk arrives. Decompressed bytes are in these chunks,
and stay within their bound. Raw bytes need not be: those that come after the last chunk, or
without any, are only added up when the body has ended, and those of `robots.txt` files are
held against another bound. -/
namespace Fetech.Http
open Lib Lib.Url Lib.Program

/-! ### Steps that read no robots -/

/-- From one state of a call to another with the same bounds and the same robots read. -/
structure Level (s t : Exchange) : Prop where
  request : t.context.request = s.context.request
  wire : t.maximumWireBytes = s.maximumWireBytes
  decompressed : t.maximumDecompressedBytes = s.maximumDecompressedBytes
  robotsChecked : t.robotsChecked = s.robotsChecked
  auxiliary : t.auxiliaryBytes = s.auxiliaryBytes

namespace Level

theorem refl (s : Exchange) : Level s s := ⟨rfl, rfl, rfl, rfl, rfl⟩

theorem trans {s t u : Exchange} (hst : Level s t) (htu : Level t u) : Level s u :=
  ⟨htu.request.trans hst.request, htu.wire.trans hst.wire, htu.decompressed.trans hst.decompressed,
    htu.robotsChecked.trans hst.robotsChecked, htu.auxiliary.trans hst.auxiliary⟩

instance : IsPreorder Exchange Level where
  refl := refl
  trans _ _ _ := trans

theorem of_quiet {s t : Exchange} (h : Quiet s t) : Level s t :=
  ⟨h.request, congrArg Meter.maximumWireBytes h.meter, congrArg Meter.maximumDecompressedBytes h.meter,
    congrArg Meter.robotsChecked h.meter, congrArg Meter.auxiliaryBytes h.meter⟩

end Level

theorem Quiet.level {α : Type} {x : HttpM α} (hx : Respects Quiet x) : Respects Level x :=
  hx.mono fun _ _ => Level.of_quiet

variable (a : HttpAdapter) (call : HttpCall) (h : Hop)

theorem readRobots_level (consumedBefore : Nat) (maximumBytes : Int) (chunks : List Chunk) (body : List UInt8) :
    Respects Level (readRobots consumedBefore maximumBytes chunks body) := by
  induction chunks generalizing body with
  | nil => exact .pure _
  | cons chunk rest ih =>
    exact .bind (.modify fun _ => ⟨rfl, rfl, rfl, rfl, rfl⟩) fun _ => .bind (.check _ _) fun _ => ih _

theorem followRedirect_level (response : Response) : Respects Level (followRedirect a call h response) :=
  .bind (.modify fun _ => ⟨rfl, rfl, rfl, rfl, rfl⟩) fun _ => .bind .get fun _ => .bind (.ofOption _ _) fun _ =>
    .bind (.ofOption _ _) fun _ => Quiet.level (redirectTo_quiet a call h _ _)

theorem readBody_level (announced : Nat) (chunks : List Chunk) (body : List UInt8) :
    Respects Level (readBody announced chunks body) := by
  induction chunks generalizing body with
  | nil => exact .pure _
  | cons chunk rest ih =>
    exact .bind (.modify fun _ => ⟨rfl, rfl, rfl, rfl, rfl⟩) fun _ => .bind .get fun _ => .bind (.check _ _) fun _ =>
      .bind (.check _ _) fun _ => ih _

theorem finish_level (response : Response) : Respects Level (finish call response) :=
  .bind (.ofExcept _) fun _ => .bind .get fun _ => .bind (.check _ _) fun _ => .bind (readBody_level _ _ _) fun _ =>
    .bind (.ofExcept _) fun _ => .bind (.modify fun _ => ⟨rfl, rfl, rfl, rfl, rfl⟩) fun _ =>
      .bind (.when _ (.modify fun _ => ⟨rfl, rfl, rfl, rfl, rfl⟩)) fun _ => .bind .get fun _ => .pure _

theorem handleResponse_level (credentialApplied : Bool) (response : Response) :
    Respects Level (handleResponse a call h credentialApplied response) := by
  refine .bind .get fun s => .ite _ (.bind (followRedirect_level a call h _) fun _ => .pure _) (.ite _ (.raise _) ?_)
  split
  · exact .bind (Quiet.level (retryExpired_quiet a h _)) fun _ => .pure _
  · exact .ite _ (.raise _) (.ite _ (.raise _) (.bind (finish_level call _) fun _ => .pure _))

/-! ### Robots -/

/-- The scheme and authority of a URL, as robots are asked for. -/
def siteOf (url : String) : Option String :=
  (urlsplit a.codecs.toTables url.toList).map fun parts =>
    String.ofList parts.scheme ++ "://" ++ String.ofList parts.netloc

/-- What a `robots.txt` counts: the size it decodes to, if there is one. -/
def robotsSize : Nat :=
  match h.robots with
  | .error _ => 0
  | .ok response => if response.status = 200 then (response.chunks.flatMap (·.data)).length else 0

/-- The robots of the sites of these URLs, the latest first: each counts once, on the turn that
requested the first URL of its site. -/
def robotsTotal (hop : Nat → Hop) : List String → Nat
  | [] => 0
  | url :: earlier =>
    robotsTotal hop earlier + if siteOf a url ∈ earlier.map (siteOf a) then 0 else robotsSize (hop earlier.length)

/-- The bytes of robots a call reads beside the requests it sends. -/
def robotsRead (request : FetchRequest) (hop : Nat → Hop) (sent : List Sent) : Nat :=
  if request.intent = "crawl" then robotsTotal a hop (sent.map (·.url)).reverse else 0

theorem readRobots_meter (consumedBefore : Nat) (maximumBytes : Int) (chunks : List Chunk) (body : List UInt8)
    (s : Exchange) (hbody : (body.length : Int) ≤ maximumBytes) :
    (readRobots consumedBefore maximumBytes chunks body).After s fun read _ =>
      read = body ++ chunks.flatMap (·.data) ∧ (read.length : Int) ≤ maximumBytes := by
  unfold After
  induction chunks generalizing body s with
  | nil => exact ⟨(List.append_nil _).symm, hbody⟩
  | cons chunk rest ih =>
    simp only [readRobots, meets_bind, meets_modify, meets_check]
    refine ⟨fun hfits => (ih (body ++ chunk.data) _ (of_decide_eq_true hfits)).mono ?_ fun _ _ _ => trivial,
      fun _ => trivial⟩
    rintro read t ⟨hread, hlength⟩
    rw [List.append_assoc] at hread
    exact ⟨hread, hlength⟩

theorem robotsFailed_raises {α : Type} (err : HttpError) (s : Exchange) :
    (robotsFailed err : HttpM α).After s fun _ _ => False := by
  cases err with
  | transport typeName timeout =>
    exact (meets_bind _ _).mpr (((Quiet.recordOutcome _ _ _ _).meets s).mono (fun _ _ _ => trivial) fun _ _ _ => trivial)
  | _ => trivial

theorem weighRobots_after (robotsUrl target : String) (maximumBytes : Int) (response : Response) (s : Exchange)
    (hpositive : 0 ≤ maximumBytes) (hreply : h.robots = .ok response) :
    (weighRobots a robotsUrl target maximumBytes response).After s fun bytes t =>
      Level s t ∧ bytes = robotsSize h ∧ (bytes : Int) ≤ maximumBytes := by
  unfold After
  rw [weighRobots, meets_ite]
  refine ⟨fun hstatus => ?_, fun hstatus => ?_⟩
  · have hnone : robotsSize h = 0 := by simp only [robotsSize, hreply, if_neg hstatus]
    rw [hnone]
    have hquiet : Respects Quiet (do
        let destination ← sanitized a target
        let status := toString response.status
        recordDecision {
          policyId := "robots_policy_check", allowed := true
          reason := "robots.txt returned HTTP " ++ status ++ "; policy allowed retrieval"
          destination := some destination}
        recordOutcome "robots_policy_check" .applied "security"
          [("status_code", .int response.status), ("allowed", .flag true)]) :=
      .bind (Quiet.sanitized a target) fun _ => .bind (Quiet.recordDecision _) fun _ => Quiet.recordOutcome _ _ _ _
    have hmeets := (Quiet.level hquiet).meets s
    simp only [meets_bind] at hmeets ⊢
    refine hmeets.mono (fun destination t ht => ?_) fun _ _ _ => trivial
    refine ht.mono (fun _ u hu => ?_) fun _ _ _ => trivial
    refine hu.mono (fun _ v hv => ?_) fun _ _ _ => trivial
    exact ⟨hv, rfl, hpositive⟩
  · have hsize : robotsSize h = (response.chunks.flatMap (·.data)).length := by
      simp only [robotsSize, hreply, if_pos (not_not.mp hstatus)]
    rw [hsize]
    simp only [meets_bind, meets_get]
    refine (((readRobots_level _ _ _ _).meets s).and
      (readRobots_meter s.auxiliaryBytes maximumBytes response.chunks [] s hpositive)).mono ?_ fun _ _ _ => trivial
    rintro body t ⟨hlevel, hbody, hlength⟩
    rw [List.nil_append] at hbody
    split
    · rename_i err _
      exact (robotsFailed_raises err t).mono (fun _ _ => False.elim) fun _ _ _ => trivial
    · rw [meets_bind]
      refine ((Quiet.level (judgeRobots_quiet a robotsUrl target body)).meets t).mono (fun _ u hu => ?_) fun _ _ _ => trivial
      exact ⟨hlevel.trans hu, congrArg List.length hbody, hlength⟩

theorem enforceRobots_after (origin : String) (maximumBytes : Int) (s : Exchange) :
    (enforceRobots a h origin maximumBytes).After s fun bytes t =>
      Level s t ∧ bytes = robotsSize h ∧ (bytes : Int) ≤ maximumBytes := by
  unfold After
  simp only [enforceRobots, meets_bind, meets_check, meets_modify]
  refine ⟨fun hpositive => ?_, fun _ => trivial⟩
  split
  · rename_i err _
    exact (robotsFailed_raises err _).mono (fun _ _ => False.elim) fun _ _ _ => trivial
  · rename_i response hreply
    simp only [meets_bind, meets_modify, meets_get]
    refine (weighRobots_after a h _ _ maximumBytes response _ (of_decide_eq_true hpositive).le hreply).mono ?_
      fun _ _ _ => trivial
    rintro bytes t ⟨hlevel, hbytes⟩
    exact ⟨⟨hlevel.request, hlevel.wire, hlevel.decompressed, hlevel.robotsChecked, hlevel.auxiliary⟩, hbytes⟩

/-- On a crawl the robots of a new site are read, and count. -/
structure RobotsCounted (s t : Exchange) : Prop where
  request : t.context.request = s.context.request
  wire : t.maximumWireBytes = s.maximumWireBytes
  decompressed : t.maximumDecompressedBytes = s.maximumDecompressedBytes
  counted : s.context.request.intent = "crawl" → ∃ origin, siteOf a s.current = some origin ∧
    (origin ∈ s.robotsChecked → t.robotsChecked = s.robotsChecked ∧ t.auxiliaryBytes = s.auxiliaryBytes) ∧
    (origin ∉ s.robotsChecked → t.robotsChecked = origin :: s.robotsChecked ∧
      t.auxiliaryBytes = s.auxiliaryBytes + robotsSize h ∧ (t.auxiliaryBytes : Int) ≤ s.maximumDecompressedBytes)
  silent : s.context.request.intent ≠ "crawl" → t.auxiliaryBytes = s.auxiliaryBytes

theorem checkRobots_after (s : Exchange) : (checkRobots a h).After s fun _ t => RobotsCounted a h s t := by
  unfold After
  simp only [checkRobots, splitUrl, meets_bind, meets_get, meets_ofOption]
  refine ⟨fun parts hparts => ?_, fun _ => trivial⟩
  have hsite : siteOf a s.current = some (String.ofList parts.scheme ++ "://" ++ String.ofList parts.netloc) := by
    rw [siteOf, hparts]
    rfl
  generalize String.ofList parts.scheme ++ "://" ++ String.ofList parts.netloc = origin at hsite ⊢
  rw [meets_ite]
  refine ⟨fun hasks => ?_, fun hasks => ?_⟩
  · simp only [meets_bind, meets_modify, meets_pure]
    refine (enforceRobots_after a h origin _ _).mono ?_ fun _ _ _ => trivial
    rintro bytes t ⟨hlevel, rfl, hfits⟩
    refine ⟨hlevel.request, hlevel.wire, hlevel.decompressed, fun _ => ⟨origin, hsite, fun hseen => absurd hseen hasks.2,
      fun _ => ⟨hlevel.robotsChecked, ?_, ?_⟩⟩, fun hno => absurd hasks.1 hno⟩
    · exact congrArg (· + robotsSize h) hlevel.auxiliary
    · have hauxiliary : t.auxiliaryBytes = s.auxiliaryBytes := hlevel.auxiliary
      show ((t.auxiliaryBytes + robotsSize h : Nat) : Int) ≤ _
      rw [hauxiliary]
      have hrest := hfits.trans (min_le_right _ _)
      push_cast
      omega
  · refine ⟨rfl, rfl, rfl, fun hcrawl => ⟨origin, hsite, fun _ => ⟨rfl, rfl⟩, fun hfresh => ?_⟩, fun _ => rfl⟩
    exact absurd ⟨hcrawl, hfresh⟩ hasks

/-! ### The body -/

/-- What is known of a body that was read to its end. -/
structure Fetched (s : Exchange) (response : Response) (result : HttpResult) : Prop where
  counted : ∃ announced : Nat, (announced = 0 ∨ ((announced + s.auxiliaryBytes : Nat) : Int) ≤ s.maximumWireBytes) ∧
    (∀ chunk ∈ response.chunks, ((max chunk.downloaded announced + s.auxiliaryBytes : Nat) : Int) ≤ s.maximumWireBytes) ∧
    result.wireBytes = max response.downloaded announced + s.auxiliaryBytes
  auxiliary : result.auxiliaryBytes = s.auxiliaryBytes
  decompressed : (s.auxiliaryBytes : Int) ≤ s.maximumDecompressedBytes →
    ((result.body.length + s.auxiliaryBytes : Nat) : Int) ≤ s.maximumDecompressedBytes

theorem readBody_after (announced : Nat) (chunks : List Chunk) (body : List UInt8) (s : Exchange) :
    (readBody announced chunks body).After s fun read t => Level s t ∧
      (∀ chunk ∈ chunks, ((max chunk.downloaded announced + s.auxiliaryBytes : Nat) : Int) ≤ s.maximumWireBytes) ∧
      (((body.length + s.auxiliaryBytes : Nat) : Int) ≤ s.maximumDecompressedBytes →
        ((read.length + s.auxiliaryBytes : Nat) : Int) ≤ s.maximumDecompressedBytes) := by
  unfold After
  induction chunks generalizing body s with
  | nil => exact ⟨.refl s, fun chunk hchunk => absurd hchunk List.not_mem_nil, id⟩
  | cons chunk rest ih =>
    simp only [readBody, meets_bind, meets_modify, meets_get, meets_check]
    refine ⟨fun hwire => ⟨fun hdecompressed => ?_, fun _ => trivial⟩, fun _ => trivial⟩
    refine (ih (body ++ chunk.data) _).mono ?_ fun _ _ _ => trivial
    rintro read t ⟨hlevel, hrest, hread⟩
    refine ⟨⟨hlevel.request, hlevel.wire, hlevel.decompressed, hlevel.robotsChecked, hlevel.auxiliary⟩, ?_, fun _ => ?_⟩
    · intro other hother
      obtain rfl | hother := List.mem_cons.mp hother
      · exact of_decide_eq_true hwire
      · exact hrest other hother
    · exact hread (of_decide_eq_true hdecompressed)

theorem finish_after (response : Response) (s : Exchange) :
    (finish call response).After s fun result t => Level s t ∧ Fetched s response result := by
  unfold After
  simp only [finish, meets_bind, meets_ofExcept, meets_get, meets_check, meets_modify, meets_when, meets_pure]
  refine ⟨fun announced _ => ⟨fun hannounced => ?_, fun _ => trivial⟩, fun _ _ => trivial⟩
  have hlength : announced.getD 0 = 0 ∨ ((announced.getD 0 + s.auxiliaryBytes : Nat) : Int) ≤ s.maximumWireBytes := by
    cases announced with
    | none => exact .inl rfl
    | some n => exact .inr (of_decide_eq_true hannounced)
  refine (readBody_after (announced.getD 0) response.chunks [] s).mono ?_ fun _ _ _ => trivial
  rintro body t ⟨hlevel, hchunks, hbody⟩
  have hfetched : ∀ result : HttpResult, result.body = body → result.auxiliaryBytes = t.auxiliaryBytes →
      result.wireBytes = max response.downloaded (announced.getD 0) + t.auxiliaryBytes → Fetched s response result := by
    intro result hresult hauxiliary hwire
    rw [hlevel.auxiliary] at hauxiliary hwire
    refine ⟨⟨_, hlength, hchunks, hwire⟩, hauxiliary, fun hfits => ?_⟩
    rw [hresult]
    exact hbody (by simpa using hfits)
  exact ⟨fun _ _ => ⟨fun _ => ⟨⟨hlevel.request, hlevel.wire, hlevel.decompressed, hlevel.robotsChecked,
    hlevel.auxiliary⟩, hfetched _ rfl rfl rfl⟩, fun _ => ⟨⟨hlevel.request, hlevel.wire, hlevel.decompressed,
      hlevel.robotsChecked, hlevel.auxiliary⟩, hfetched _ rfl rfl rfl⟩⟩, fun _ _ => trivial⟩

theorem handleResponse_after (credentialApplied : Bool) (response : Response) (s : Exchange) :
    (handleResponse a call h credentialApplied response).After s fun r t => Level s t ∧ t.sent = s.sent ∧
      ∀ result, r = some result → Fetched s response result := by
  have hkept := ((handleResponse_level a call h credentialApplied response).meets s).and
    (handleResponse_meets a call h credentialApplied response s)
  have hfetched : (handleResponse a call h credentialApplied response).After s fun r _ =>
      ∀ result, r = some result → Fetched s response result := by
    unfold After
    simp only [handleResponse, meets_bind, meets_get]
    rw [meets_ite]
    refine ⟨fun _ => ?_, fun _ => ?_⟩
    · rw [meets_bind]
      exact ((followRedirect_level a call h response).meets s).mono (fun _ _ _ _ hnone => by cases hnone) fun _ _ _ => trivial
    rw [meets_ite]
    refine ⟨fun _ => trivial, fun _ => ?_⟩
    split
    · rw [meets_bind]
      exact ((Quiet.level (retryExpired_quiet a h _)).meets s).mono (fun _ _ _ _ hnone => by cases hnone)
        fun _ _ _ => trivial
    · rw [meets_ite]
      refine ⟨fun _ => trivial, fun _ => ?_⟩
      rw [meets_ite]
      refine ⟨fun _ => trivial, fun _ => ?_⟩
      rw [meets_bind]
      refine (finish_after call response s).mono ?_ fun _ _ _ => trivial
      rintro result t ⟨-, hresult⟩ result' hsome
      cases hsome
      exact hresult
  refine (hkept.and hfetched).mono ?_ fun _ _ _ => trivial
  rintro r t ⟨⟨hlevel, -, hanswered⟩, hresult⟩
  exact ⟨hlevel, hanswered.sent, hresult⟩

/-! ### One turn -/

theorem Fetched.of_level {s t : Exchange} {response : Response} {result : HttpResult} (hlevel : Level s t)
    (h : Fetched t response result) : Fetched s response result := by
  obtain ⟨hcounted, hauxiliary, hdecompressed⟩ := h
  rw [hlevel.auxiliary, hlevel.wire] at hcounted
  rw [hlevel.auxiliary] at hauxiliary
  rw [hlevel.auxiliary, hlevel.decompressed] at hdecompressed
  exact ⟨hcounted, hauxiliary, hdecompressed⟩

/-- A turn that came to an answer: from where its URL was entered, robots and one request. -/
structure AnsweredTurn (s t : Exchange) (r : Option HttpResult) : Prop where
  turn : ∃ u v : Exchange, Level s u ∧ RobotsCounted a h u v ∧ Level v t ∧ ∃ (x : Sent) (response : Response),
    t.sent = s.sent ++ [x] ∧ x.url = u.current ∧ x.reply = .ok response ∧ ∀ result, r = some result → Fetched v response result

theorem arrive_after (s : Exchange) : (arrive a call h).After s fun _ t => Level s t ∧ t.sent = s.sent := by
  refine (((Quiet.level (arrive_quiet a call h)).meets s).and (arrive_meets a call h s)).mono ?_ fun _ _ _ => trivial
  rintro _ t ⟨hlevel, -, hprepared⟩
  exact ⟨hlevel, hprepared.kept'.sent⟩

theorem exchangeCurrent_after (s : Exchange) : (exchangeCurrent a call h).After s fun r t => AnsweredTurn a h s t r := by
  unfold After
  rw [exchangeCurrent, meets_bind]
  refine ((checkRobots_after a h s).and (checkRobots_meets a h s)).mono ?_ fun _ _ _ => trivial
  rintro robotsFetched u ⟨hcounted, hcore, -⟩
  rw [meets_bind]
  refine (((Quiet.level (recordRateLimit_quiet a)).meets u).and (recordRateLimit_keeps a u)).mono ?_ fun _ _ _ => trivial
  rintro _ v ⟨hlevel, hvcore, -⟩
  rw [meets_bind]
  refine (((Quiet.level (applyCredential_quiet a)).meets v).and (applyCredential_meets a v)).mono ?_ fun _ _ _ => trivial
  rintro ⟨headers, credentialApplied⟩ w ⟨hwlevel, -, hwcore, -⟩
  rw [meets_bind]
  refine (((Quiet.level (applyCookies_quiet a call headers)).meets w).and (applyCookies_meets a call headers w)).mono ?_
    fun _ _ _ => trivial
  rintro ⟨headers', cookies⟩ x ⟨hxlevel, -, hxcore, -⟩
  have hsame : x.core = s.core := ((hxcore.trans hwcore).trans hvcore).trans hcore
  have hlevel' : Level u x := (hlevel.trans hwlevel).trans hxlevel
  rw [meets_bind]
  refine (((Quiet.level (sendRequest_quiet h robotsFetched headers' cookies)).meets x).and
    (sendRequest_meets h robotsFetched headers' cookies x)).mono ?_ fun _ _ _ => trivial
  rintro response y ⟨hylevel, hreply, hycore, -⟩
  have hsent : y.sent = s.sent ++ [posted s.core headers' cookies h.reply] := by
    rw [hsame] at hycore
    exact congrArg Core.sent hycore
  refine (handleResponse_after a call h credentialApplied response y).mono ?_ fun _ _ _ => trivial
  rintro r z ⟨hzlevel, hzsent, hresult⟩
  refine ⟨s, u, .refl s, hcounted, (hlevel'.trans hylevel).trans hzlevel, _, response, hzsent.trans hsent, rfl, hreply, ?_⟩
  exact fun result hr => (hresult result hr).of_level (hlevel'.trans hylevel)

theorem hop_after (s : Exchange) : (hop a call h).After s fun r t => AnsweredTurn a h s t r := by
  unfold After
  rw [hop, meets_bind]
  refine (arrive_after a call h s).mono ?_ fun _ _ _ => trivial
  rintro _ t ⟨hlevel, hsent⟩
  refine (exchangeCurrent_after a call h t).mono ?_ fun _ _ _ => trivial
  rintro r w ⟨u, v, hu, hcounted, hv, x, response, hx, hurl, hreply, hresult⟩
  exact ⟨u, v, hlevel.trans hu, hcounted, hv, x, response, hx.trans (by rw [hsent]), hurl, hreply, hresult⟩

/-! ### The loop -/

variable (ctx : ExecutionContext) (world : World)

/-- Between two turns: the robots read are those of the sites requested so far. -/
structure Measured (k : Nat) (s : Exchange) : Prop where
  request : s.context.request = ctx.request
  wire : s.maximumWireBytes = ctx.remainingBudget .bytes
  decompressed : s.maximumDecompressedBytes = ctx.remainingBudget .decompressedBytes
  counted : s.sent.length = k
  sites : ctx.request.intent = "crawl" → ∀ origin, origin ∈ s.robotsChecked ↔ some origin ∈ s.sent.map (siteOf a ·.url)
  robots : s.auxiliaryBytes = robotsRead a ctx.request world.hop s.sent
  fits : (s.auxiliaryBytes : Int) ≤ s.maximumDecompressedBytes

/-- What a call returned, and the answer it came from. -/
def Returned (result : HttpResult) (s : Exchange) : Prop :=
  ∃ (last : Sent) (response : Response) (v : Exchange), s.sent.getLast? = some last ∧ last.reply = .ok response ∧
    Fetched v response result ∧ v.maximumWireBytes = ctx.remainingBudget .bytes ∧
    v.maximumDecompressedBytes = ctx.remainingBudget .decompressedBytes ∧
    v.auxiliaryBytes = robotsRead a ctx.request world.hop s.sent ∧ (v.auxiliaryBytes : Int) ≤ v.maximumDecompressedBytes

variable {a ctx world}

theorem robotsRead_snoc {sent : List Sent} {x : Sent} (hcrawl : ctx.request.intent = "crawl") :
    robotsRead a ctx.request world.hop (sent ++ [x]) = robotsRead a ctx.request world.hop sent +
      if siteOf a x.url ∈ sent.map (siteOf a ·.url) then 0 else robotsSize (world.hop sent.length) := by
  have hsites : siteOf a x.url ∈ (sent.map (·.url)).reverse.map (siteOf a) ↔ siteOf a x.url ∈ sent.map (siteOf a ·.url) := by
    rw [List.map_reverse, List.mem_reverse, List.map_map]
    rfl
  rw [robotsRead, robotsRead, if_pos hcrawl, if_pos hcrawl, List.map_append, List.map_singleton, List.reverse_concat,
    robotsTotal, List.length_reverse, List.length_map]
  simp only [hsites]

/-- What one turn adds to the robots. -/
theorem Measured.robots_counted {k : Nat} {s u v : Exchange} (hs : Measured a ctx world k s) (hu : Level s u)
    (hcounted : RobotsCounted a (world.hop k) u v) {x : Sent} (hurl : x.url = u.current) :
    v.auxiliaryBytes = robotsRead a ctx.request world.hop (s.sent ++ [x]) ∧
      (v.auxiliaryBytes : Int) ≤ v.maximumDecompressedBytes ∧
      (ctx.request.intent = "crawl" → ∀ origin, origin ∈ v.robotsChecked ↔
        some origin ∈ (s.sent ++ [x]).map (siteOf a ·.url)) := by
  have hrequest : u.context.request = ctx.request := hu.request.trans hs.request
  have hauxiliary : u.auxiliaryBytes = robotsRead a ctx.request world.hop s.sent := hu.auxiliary.trans hs.robots
  have hfits : (u.auxiliaryBytes : Int) ≤ v.maximumDecompressedBytes := by
    rw [hcounted.decompressed, hu.decompressed, hu.auxiliary]
    exact hs.fits
  by_cases hcrawl : ctx.request.intent = "crawl"
  · obtain ⟨origin, hsite, hseen, hfresh⟩ := hcounted.counted (by rw [hrequest]; exact hcrawl)
    have hsites := hs.sites hcrawl
    have hxsite : siteOf a x.url = some origin := by rw [hurl, hsite]
    rw [robotsRead_snoc hcrawl, hxsite, hs.counted, ← hauxiliary]
    rw [hu.robotsChecked] at hseen hfresh
    have hmap : (s.sent ++ [x]).map (siteOf a ·.url) = s.sent.map (siteOf a ·.url) ++ [some origin] := by
      rw [List.map_append, List.map_singleton, hxsite]
    simp only [hmap, List.mem_append, List.mem_singleton, Option.some.injEq]
    by_cases hmem : origin ∈ s.robotsChecked
    · obtain ⟨hchecked, hbytes⟩ := hseen hmem
      rw [if_pos ((hsites origin).mp hmem), hbytes, hchecked]
      refine ⟨rfl, hfits, fun _ other => ?_⟩
      rw [← hsites other]
      exact ⟨.inl, fun h => h.elim id fun heq => heq ▸ hmem⟩
    · obtain ⟨hchecked, hbytes, hbound⟩ := hfresh hmem
      rw [if_neg fun h => hmem ((hsites origin).mpr h), hchecked]
      refine ⟨hbytes, hcounted.decompressed ▸ hbound, fun _ other => ?_⟩
      rw [List.mem_cons, ← hsites other, or_comm]
  · have hbytes := hcounted.silent (by rw [hrequest]; exact hcrawl)
    have hnone : ∀ sent, robotsRead a ctx.request world.hop sent = 0 := fun _ => if_neg hcrawl
    rw [hnone] at hauxiliary
    exact ⟨by rw [hbytes, hauxiliary, hnone], hbytes ▸ hfits, fun h => absurd h hcrawl⟩

theorem Measured.hop {k : Nat} {s : Exchange} (hs : Measured a ctx world k s) :
    (hop a call (world.hop k)).After s fun r t =>
      (r = none → Measured a ctx world (k + 1) t) ∧ ∀ result, r = some result → Returned a ctx world result t := by
  refine (hop_after a call (world.hop k) s).mono ?_ fun _ _ _ => trivial
  rintro r t ⟨u, v, hu, hcounted, hv, x, response, hx, hurl, hreply, hresult⟩
  obtain ⟨hrobots, hfits, hsites⟩ := hs.robots_counted hu hcounted hurl
  have hwire : v.maximumWireBytes = ctx.remainingBudget .bytes := (hcounted.wire.trans hu.wire).trans hs.wire
  have hdecompressed : v.maximumDecompressedBytes = ctx.remainingBudget .decompressedBytes :=
    (hcounted.decompressed.trans hu.decompressed).trans hs.decompressed
  refine ⟨fun _ => ⟨?_, hv.wire.trans hwire, hv.decompressed.trans hdecompressed, ?_, ?_, ?_, ?_⟩, fun result hr => ?_⟩
  · exact ((hv.request.trans hcounted.request).trans hu.request).trans hs.request
  · rw [hx, List.length_append, hs.counted]
    rfl
  · intro hcrawl origin
    rw [hv.robotsChecked, hx]
    exact hsites hcrawl origin
  · rw [hv.auxiliary, hrobots, hx]
  · rw [hv.auxiliary, hv.decompressed]
    exact hfits
  · exact ⟨x, response, v, by rw [hx, List.getLast?_concat], hreply, hresult result hr, hwire, hdecompressed,
      by rw [hrobots, hx], hfits⟩

/-! ### HTTP/3 -/

/-- What a call over HTTP/3 returned: its bytes were counted as they came. -/
structure Returned3 (ctx : ExecutionContext) (result : HttpResult) (s : Exchange) : Prop where
  answer : ∃ (last : Sent) (reply : Http3Response), s.sent.getLast? = some last ∧ last.reply = .ok reply.response
  wire : (result.wireBytes : Int) ≤ ctx.remainingBudget .bytes
  decompressed : ((result.body.length + result.auxiliaryBytes : Nat) : Int) ≤ ctx.remainingBudget .decompressedBytes

/-- Between two turns over HTTP/3. -/
structure Bounded3 (ctx : ExecutionContext) (s : Exchange) : Prop where
  wire : s.maximumWireBytes = ctx.remainingBudget .bytes
  decompressed : s.maximumDecompressedBytes = ctx.remainingBudget .decompressedBytes

theorem Bounded3.of_quiet {s t : Exchange} (hs : Bounded3 ctx s) (h : Quiet s t) : Bounded3 ctx t :=
  ⟨(congrArg Meter.maximumWireBytes h.meter).trans hs.wire,
    (congrArg Meter.maximumDecompressedBytes h.meter).trans hs.decompressed⟩

theorem handleHttp3_after {s : Exchange} (hs : Bounded3 ctx s) {last : Sent} (reply : Http3Response)
    (hlast : s.sent.getLast? = some last) (hreply : last.reply = .ok reply.response) :
    (handleHttp3 a reply).After s fun r t =>
      (r = none → Bounded3 ctx t) ∧ ∀ result, r = some result → Returned3 ctx result t := by
  unfold After
  simp only [handleHttp3, meets_bind, meets_modify, meets_get, meets_check, meets_ite, meets_ofOption, meets_raise,
    meets_pure]
  refine ⟨fun hbounds => ⟨fun _ => ⟨fun _ => ⟨fun _ _ => ⟨fun _ => ⟨hs.wire, hs.decompressed⟩, fun _ => ?_⟩,
    fun _ => trivial⟩, fun _ => trivial⟩, fun _ => ⟨fun _ => trivial, fun _ => ⟨fun _ => trivial, fun _ =>
      ⟨fun _ => trivial, fun _ => ⟨fun hnone => absurd hnone (Option.some_ne_none _), fun result hresult => ?_⟩⟩⟩⟩⟩,
    fun _ => trivial⟩
  · rintro ⟨⟩
  cases hresult
  simp only [Bool.and_eq_true, decide_eq_true_eq] at hbounds
  rw [hs.wire, hs.decompressed] at hbounds
  exact ⟨⟨last, reply, hlast, hreply⟩, hbounds.1, le_trans (by push_cast; omega) hbounds.2⟩

theorem Bounded3.hop {s : Exchange} (hs : Bounded3 ctx s) (h : Hop) :
    (hopHttp3 a h).After s fun r t => (r = none → Bounded3 ctx t) ∧ ∀ result, r = some result → Returned3 ctx result t := by
  unfold After
  rw [hopHttp3, meets_bind]
  refine ((takeSlot_quiet a h).meets s).mono (fun _ t ht => ?_) fun _ _ _ => trivial
  rw [meets_bind]
  refine ((evaluateCurrent_quiet a h).meets t).mono (fun _ u hu => ?_) fun _ _ _ => trivial
  rw [meets_bind]
  refine ((enterHttp3_quiet a).meets u).mono (fun _ v hv => ?_) fun _ _ _ => trivial
  rw [meets_bind]
  refine ((recordRateLimit_quiet a).meets v).mono (fun _ w hw => ?_) fun _ _ _ => trivial
  have hbounded : Bounded3 ctx w := (((hs.of_quiet ht).of_quiet hu).of_quiet hv).of_quiet hw
  simp only [meets_bind, meets_get, meets_check, withinDeadline, sendHttp3, meets_modify, meets_ofExcept]
  refine ⟨fun _ => ⟨fun _ => ⟨fun reply hreply => ?_, fun _ _ => trivial⟩, fun _ => trivial⟩, fun _ => trivial⟩
  have hposted : (postedHttp3 a h w.core).reply = .ok reply.response := by
    show h.http3.map Http3Response.response = _
    rw [hreply]
    rfl
  refine handleHttp3_after ?_ reply ?_ hposted
  · exact ⟨hbounded.wire, hbounded.decompressed⟩
  · exact List.getLast?_concat

/-! ### The call -/

theorem request_after (a : HttpAdapter) (call : HttpCall) (world : World) (ctx : ExecutionContext)
    (validated : ValidatedAddresses) :
    (request a call world).After (.initial ctx validated call) fun result t =>
      if ctx.request.outputRequirements.contains "http_3" then ctx.request.intent ≠ "crawl" ∧
        0 < ctx.remainingBudget .bytes ∧ Returned3 ctx result t
      else Returned a ctx world result t := by
  unfold After
  simp only [request, meets_bind, meets_check, meets_get]
  refine ⟨fun _ => ?_, fun _ => trivial⟩
  rw [meets_ite]
  refine ⟨fun hhttp3 => ?_, fun hhttp => ?_⟩
  · have hthree : ctx.request.outputRequirements.contains "http_3" = true := hhttp3
    simp only [prepareHttp3, meets_bind, meets_check, meets_get, meets_modify]
    refine ⟨fun _ => ⟨fun hcrawl => ⟨fun hbudget => ?_, fun _ => trivial⟩, fun _ => trivial⟩, fun _ => trivial⟩
    have hloop := hops_after (I := fun _ => Bounded3 ctx) (Q := Returned3 ctx) world.hop
      (fun k s hs => hs.hop (a := a) (world.hop k)) (turns ctx) 0
      {Exchange.initial ctx validated call with
        maximumWireBytes := ctx.remainingBudget .bytes
        maximumDecompressedBytes := ctx.remainingBudget .decompressedBytes
        current := call.destination} ⟨rfl, rfl⟩
    simp only [Nat.zero_add] at hloop
    refine Meets.mono hloop (fun result t ht => ?_) fun _ _ _ => trivial
    simp only [Bool.and_eq_true, decide_eq_true_eq] at hbudget
    rw [if_pos hthree]
    exact ⟨of_decide_eq_true hcrawl, hbudget.1, ht⟩
  · have hplain : ¬(ctx.request.outputRequirements.contains "http_3" = true) := hhttp
    simp only [if_neg hplain]
    rw [meets_bind]
    simp only [prepare, withinDeadline, meets_bind, meets_get, meets_check, meets_ofExcept, meets_modify]
    refine ⟨fun hbudget => ⟨fun _ => ⟨fun initial _ => ⟨fun _ => ⟨fun _ => ?_, fun _ => trivial⟩, fun _ => trivial⟩,
      fun _ _ => trivial⟩, fun _ => trivial⟩, fun _ => trivial⟩
    have hloop := hops_after (I := Measured a ctx world) (Q := Returned a ctx world) world.hop
      (fun k s hs => hs.hop call) (turns ctx) 0
    simp only [Nat.zero_add] at hloop
    refine hloop _ ⟨rfl, rfl, rfl, rfl, fun _ origin => ?_, ?_, ?_⟩
    · simp [Exchange.initial]
    · show 0 = robotsRead a ctx.request world.hop []
      unfold robotsRead
      split
      · rfl
      · rfl
    · exact le_max_left _ _

/-! ### Bytes within their bounds -/

/-- What a call returns is within the budgets that remained when it began. -/
def WithinBudget (ctx : ExecutionContext) (result : HttpResult) : Prop :=
  (result.wireBytes : Int) ≤ ctx.remainingBudget .bytes ∧
    ((result.body.length + result.auxiliaryBytes : Nat) : Int) ≤ ctx.remainingBudget .decompressedBytes

/-- The raw bytes of an answer were all read when its last decoded chunk came, or they fit in the
budget with these robots. -/
def CountedInTime (limit : Int) (robots : Nat) (response : Response) : Prop :=
  (∃ chunk ∈ response.chunks.getLast?, response.downloaded ≤ chunk.downloaded) ∨
    ((response.downloaded + robots : Nat) : Int) ≤ limit

theorem Fetched.within_iff {v : Exchange} {response : Response} {result : HttpResult} (h : Fetched v response result)
    (hfits : (v.auxiliaryBytes : Int) ≤ v.maximumDecompressedBytes)
    (hwire : v.maximumWireBytes = ctx.remainingBudget .bytes)
    (hdecompressed : v.maximumDecompressedBytes = ctx.remainingBudget .decompressedBytes) :
    WithinBudget ctx result ↔ CountedInTime (ctx.remainingBudget .bytes) v.auxiliaryBytes response := by
  obtain ⟨announced, hannounced, hchunks, hcount⟩ := h.counted
  have hbody := h.decompressed hfits
  rw [hwire] at hannounced hchunks
  rw [hdecompressed] at hbody
  rw [WithinBudget, hcount, h.auxiliary]
  constructor
  · rintro ⟨hbound, -⟩
    refine .inr (le_trans ?_ hbound)
    exact_mod_cast Nat.add_le_add_right (le_max_left _ _) _
  · intro hintime
    refine ⟨?_, hbody⟩
    obtain ⟨chunk, hchunk, hlast⟩ | hbound := hintime
    · refine le_trans ?_ (hchunks chunk (List.mem_of_getLast? hchunk))
      exact_mod_cast Nat.add_le_add_right (max_le_max_right announced hlast) _
    · obtain rfl | hlength := hannounced
      · rw [Nat.max_zero]
        exact hbound
      · obtain hmax | hmax := max_choice response.downloaded announced
        · rw [hmax]
          exact hbound
        · rw [hmax]
          exact hlength

/-- **A call stays within its byte budgets exactly if the raw bytes of its last answer were
counted in time**: for every stream of raw reads and decoded chunks, every chain of redirects
and all robots read on the way. -/
theorem within_budget_iff (a : HttpAdapter) (call : HttpCall) (world : World) (ctx : ExecutionContext)
    (validated : ValidatedAddresses) (result : HttpResult)
    (h : (request a call world (.initial ctx validated call)).1 = .ok result) :
    WithinBudget ctx result ↔
      ∃ last ∈ (exchange a call world ctx validated).sent.getLast?, ∃ response, last.reply = .ok response ∧
        CountedInTime (ctx.remainingBudget .bytes)
          (robotsRead a ctx.request world.hop (exchange a call world ctx validated).sent) response := by
  have hall := (after_iff _).mp (request_after a call world ctx validated) result
    (exchange a call world ctx validated) (Prod.ext h rfl)
  generalize exchange a call world ctx validated = t at hall
  split at hall
  · obtain ⟨hcrawl, hpositive, ⟨last, reply, hlast, hreply⟩, hwire, hdecompressed⟩ := hall
    refine ⟨fun _ => ⟨last, hlast, reply.response, hreply, .inr ?_⟩, fun _ => ⟨hwire, hdecompressed⟩⟩
    have hnone : robotsRead a ctx.request world.hop t.sent = 0 := if_neg hcrawl
    rw [hnone]
    exact hpositive.le
  · obtain ⟨last, response, v, hlast, hreply, hfetched, hwire, hdecompressed, hrobots, hfits⟩ := hall
    rw [hfetched.within_iff hfits hwire hdecompressed, hrobots]
    constructor
    · exact fun hintime => ⟨last, hlast, response, hreply, hintime⟩
    · rintro ⟨last', hlast', response', hreply', hintime⟩
      cases hlast.symm.trans hlast'
      cases hreply.symm.trans hreply'
      exact hintime

/-- A budget of a hundred bytes on the wire. -/
def hundredBytes : ExecutionContext :=
  {request := {target := "http://example.org/", budget := {bytes := 100, decompressedBytes := 100}}}

/-- A call for a page, and what it comes to on that budget when the server answers so. -/
def homeCall : HttpCall := {destination := "http://example.org/"}

def homeReturned (response : Response) : Except HttpError HttpResult :=
  (request sampleAdapter homeCall (scripted [response]) (.initial hundredBytes ∅ homeCall)).1

theorem within_budget_iff_page :
    ∃ result, homeReturned {status := 200, chunks := [⟨[1, 2, 3], 40⟩], downloaded := 40} = .ok result ∧
      WithinBudget hundredBytes result := by
  have hreturns : (homeReturned {status := 200, chunks := [⟨[1, 2, 3], 40⟩], downloaded := 40}).toOption.isSome = true := by
    decide +kernel
  have hanswer : (((exchange sampleAdapter homeCall
      (scripted [{status := 200, chunks := [⟨[1, 2, 3], 40⟩], downloaded := 40}]) hundredBytes ∅).sent.getLast?.bind
        (·.reply.toOption)).map fun r => (r.chunks.getLast?.map (·.downloaded), r.downloaded)) = some (some 40, 40) := by
    decide +kernel
  obtain ⟨result, hresult⟩ := Option.isSome_iff_exists.mp hreturns
  have hok := Except.toOption_eq_some.mp hresult
  refine ⟨result, hok, (within_budget_iff _ _ _ _ _ result hok).mpr ?_⟩
  obtain ⟨response, hresponse, hcounts⟩ := Option.map_eq_some_iff.mp hanswer
  obtain ⟨last, hlast, hreply⟩ := Option.bind_eq_some_iff.mp hresponse
  obtain ⟨hchunks, hdownloaded⟩ := Prod.mk.inj hcounts
  obtain ⟨chunk, hchunk, hcount⟩ := Option.map_eq_some_iff.mp hchunks
  exact ⟨last, hlast, response, Except.toOption_eq_some.mp hreply, .inl ⟨chunk, hchunk, by rw [hdownloaded, hcount]⟩⟩

/-- **Compressed bytes that decode to nothing** bring no chunk, so no check runs: two hundred
bytes are read and reported on a budget of one hundred. -/
theorem undecoded_bytes_unchecked :
    hundredBytes.remainingBudget .bytes = 100 ∧ ∃ result, homeReturned {status := 200, downloaded := 200} = .ok result ∧
      result.wireBytes = 200 ∧ ¬WithinBudget hundredBytes result := by
  have hreturns : (homeReturned {status := 200, downloaded := 200}).toOption.map (·.wireBytes) = some 200 := by
    decide +kernel
  obtain ⟨result, hresult, hwire⟩ := Option.map_eq_some_iff.mp hreturns
  refine ⟨by decide, result, Except.toOption_eq_some.mp hresult, hwire, fun h => ?_⟩
  have hbound := h.1
  rw [hwire] at hbound
  exact absurd hbound (by decide)

end Fetech.Http
