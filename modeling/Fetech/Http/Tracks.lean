import Fetech.Http.Quiet

/-! What no step of a call touches.

A call records outcomes and decisions in its context, but the request, the attempts and
the artifacts stay as they are (`Tracks`). Each step respects this, and so does every call
(`request_tracks`). -/
namespace Fetech.Http
open Lib Lib.Url Lib.Program

/-- From one state of a call to a later one. -/
structure Tracks (s t : Exchange) : Prop where
  request : t.context.request = s.context.request
  attempts : t.context.attempts = s.context.attempts
  artifacts : t.context.artifacts = s.context.artifacts

namespace Tracks

theorem refl (s : Exchange) : Tracks s s := ⟨rfl, rfl, rfl⟩

instance : IsPreorder Exchange Tracks where
  refl := refl
  trans _ _ _ hst htu := ⟨htu.request.trans hst.request, htu.attempts.trans hst.attempts,
    htu.artifacts.trans hst.artifacts⟩

/-- A step that changes no count. -/
theorem of_quiet {s t : Exchange} (h : Quiet s t) : Tracks s t := ⟨h.request, h.attempts, h.artifacts⟩

/-- Records leave request, attempts and artifacts alone. -/
theorem record {f : ExecutionContext → ExecutionContext} (hrequest : ∀ ctx, (f ctx).request = ctx.request)
    (hattempts : ∀ ctx, (f ctx).attempts = ctx.attempts) (hartifacts : ∀ ctx, (f ctx).artifacts = ctx.artifacts) :
    Respects Tracks (record f) := .modify fun _ => ⟨hrequest _, hattempts _, hartifacts _⟩

theorem recordDecision (d : PolicyDecision) : Respects Tracks (recordDecision d) :=
  record (fun _ => rfl) (fun _ => rfl) fun _ => rfl

theorem recordOutcome (capabilityId : String) (status : OutcomeStatus) (stage : String)
    (details : List (String × Detail)) : Respects Tracks (recordOutcome capabilityId status stage details) :=
  record (fun _ => rfl) (fun _ => rfl) fun _ => rfl

theorem sanitized (a : HttpAdapter) (url : String) : Respects Tracks (sanitized a url) := .ofOption _ _

theorem splitUrl (a : HttpAdapter) (url : String) : Respects Tracks (splitUrl a url) := .ofOption _ _

theorem withinDeadline (elapsed : ℚ) : Respects Tracks (withinDeadline elapsed) := .bind .get fun _ => .check _ _

end Tracks

theorem Quiet.tracks {α : Type} {x : HttpM α} (hx : Respects Quiet x) : Respects Tracks x :=
  hx.mono fun _ _ => Tracks.of_quiet

variable (a : HttpAdapter) (call : HttpCall) (h : Hop)

/-! ### One hop -/

theorem readRobots_tracks (consumedBefore : Nat) (maximumBytes : Int) (chunks : List Chunk) (body : List UInt8) :
    Respects Tracks (readRobots consumedBefore maximumBytes chunks body) := by
  induction chunks generalizing body with
  | nil => exact .pure _
  | cons chunk rest ih =>
    exact .bind (.modify fun _ => ⟨rfl, rfl, rfl⟩) fun _ =>
      .bind (.check _ _) fun _ => ih _

theorem weighRobots_tracks (robotsUrl target : String) (maximumBytes : Int) (response : Response) :
    Respects Tracks (weighRobots a robotsUrl target maximumBytes response) := by
  refine .ite _ ?_ ?_
  · exact .bind (Tracks.sanitized a target) fun _ => .bind (Tracks.recordDecision _) fun _ =>
      .bind (Tracks.recordOutcome _ _ _ _) fun _ => .pure _
  · refine .bind .get fun _ => .bind (readRobots_tracks _ _ _ _) fun body => ?_
    split
    · exact Quiet.tracks (robotsFailed_quiet _)
    · exact .bind (Quiet.tracks (judgeRobots_quiet a _ _ _)) fun _ => .pure _

theorem enforceRobots_tracks (origin : String) (maximumBytes : Int) :
    Respects Tracks (enforceRobots a h origin maximumBytes) := by
  refine .bind (.check _ _) fun _ => .bind (.modify fun _ => ⟨rfl, rfl, rfl⟩) fun _ =>
    .bind (.modify fun _ => ⟨rfl, rfl, rfl⟩) fun _ => ?_
  split
  · exact Quiet.tracks (robotsFailed_quiet _)
  · exact .bind (.modify fun _ => ⟨rfl, rfl, rfl⟩) fun _ =>
      .bind .get fun _ => weighRobots_tracks a _ _ _ _

theorem checkRobots_tracks : Respects Tracks (checkRobots a h) := by
  refine .bind .get fun _ => .bind (Tracks.splitUrl a _) fun _ => .ite _ ?_ (.pure _)
  exact .bind (.modify fun _ => ⟨rfl, rfl, rfl⟩) fun _ =>
    .bind (enforceRobots_tracks a h _ _) fun _ =>
      .bind (.modify fun _ => ⟨rfl, rfl, rfl⟩) fun _ => .pure _

/-! ### The answer of a hop -/

theorem followRedirect_tracks (response : Response) : Respects Tracks (followRedirect a call h response) :=
  .bind (.modify fun _ => ⟨rfl, rfl, rfl⟩) fun _ => .bind .get fun _ => .bind (.ofOption _ _) fun _ =>
    .bind (.ofOption _ _) fun _ => Quiet.tracks (redirectTo_quiet a call h _ _)

theorem readBody_tracks (announced : Nat) (chunks : List Chunk) (body : List UInt8) :
    Respects Tracks (readBody announced chunks body) := by
  induction chunks generalizing body with
  | nil => exact .pure _
  | cons chunk rest ih =>
    exact .bind (.modify fun _ => ⟨rfl, rfl, rfl⟩) fun _ => .bind .get fun _ => .bind (.check _ _) fun _ =>
      .bind (.check _ _) fun _ => ih _

theorem finish_tracks (response : Response) : Respects Tracks (finish call response) :=
  .bind (.ofExcept _) fun _ => .bind .get fun _ => .bind (.check _ _) fun _ => .bind (readBody_tracks _ _ _) fun _ =>
    .bind (.ofExcept _) fun _ => .bind (.modify fun _ => ⟨rfl, rfl, rfl⟩) fun _ =>
      .bind (.when _ (.modify fun _ => ⟨rfl, rfl, rfl⟩)) fun _ =>
        .bind .get fun _ => .pure _

theorem handleResponse_tracks (credentialApplied : Bool) (response : Response) :
    Respects Tracks (handleResponse a call h credentialApplied response) := by
  refine .bind .get fun s => .ite _ (.bind (followRedirect_tracks a call h _) fun _ => .pure _) (.ite _ (.raise _) ?_)
  split
  · exact .bind (Quiet.tracks (retryExpired_quiet a h _)) fun _ => .pure _
  · exact .ite _ (.raise _) (.ite _ (.raise _) (.bind (finish_tracks call _) fun _ => .pure _))

theorem hop_tracks : Respects Tracks (hop a call h) :=
  .bind (Quiet.tracks (arrive_quiet a call h)) fun _ => .bind (checkRobots_tracks a h) fun _ =>
    .bind (Quiet.tracks (recordRateLimit_quiet a)) fun _ => .bind (Quiet.tracks (applyCredential_quiet a)) fun _ =>
      .bind (Quiet.tracks (applyCookies_quiet a call _)) fun _ => .bind (Quiet.tracks (sendRequest_quiet h _ _ _)) fun _ =>
        handleResponse_tracks a call h _ _

/-! ### HTTP/3 -/

theorem handleHttp3_tracks (result : Http3Response) : Respects Tracks (handleHttp3 a result) := by
  refine .bind (.modify fun _ => ⟨rfl, rfl, rfl⟩) fun _ => .bind .get fun _ =>
    .bind (.check _ _) fun _ => .ite _ ?_ (.ite _ (.raise _) (.ite _ (.raise _) (.ite _ (.raise _) (.pure _))))
  exact .bind (.modify fun _ => ⟨rfl, rfl, rfl⟩) fun _ => .bind (.check _ _) fun _ => .bind (.ofOption _ _) fun _ =>
    .bind (.modify fun _ => ⟨rfl, rfl, rfl⟩) fun _ => .pure _

theorem hopHttp3_tracks : Respects Tracks (hopHttp3 a h) :=
  .bind (Quiet.tracks (takeSlot_quiet a h)) fun _ => .bind (Quiet.tracks (evaluateCurrent_quiet a h)) fun _ =>
    .bind (Quiet.tracks (enterHttp3_quiet a)) fun _ => .bind (Quiet.tracks (recordRateLimit_quiet a)) fun _ =>
      .bind .get fun _ => .bind (.check _ _) fun _ => .bind (Tracks.withinDeadline _) fun _ =>
        .bind (Quiet.tracks (sendHttp3_quiet a h)) fun _ => handleHttp3_tracks a _

/-! ### The call -/

theorem hops_tracks {turn : Hop → HttpM (Option HttpResult)} (hturn : ∀ h, Respects Tracks (turn h)) (n : Nat)
    (world : Nat → Hop) : Respects Tracks (hops turn n world) := by
  induction n generalizing world with
  | zero => exact .raise _
  | succ n ih =>
    refine .bind (hturn _) fun result => ?_
    cases result with
    | none => exact ih _
    | some result => exact .pure _

/-- **A call leaves request, attempts and artifacts as they are.** -/
theorem request_tracks (world : World) : Respects Tracks (request a call world) := by
  refine .bind (.check _ _) fun _ => .bind .get fun _ => .ite _ ?_ ?_
  · refine .bind (.check _ _) fun _ => .bind ?_ fun _ => hops_tracks (hopHttp3_tracks a) _ _
    exact .bind .get fun _ => .bind (.check _ _) fun _ => .bind (.check _ _) fun _ =>
      .modify fun _ => ⟨rfl, rfl, rfl⟩
  · refine .bind ?_ fun _ => hops_tracks (hop_tracks a call) _ _
    exact .bind .get fun _ => .bind (.check _ _) fun _ => .bind (Tracks.withinDeadline _) fun _ =>
      .bind (.ofExcept _) fun _ => .bind (.check _ _) fun _ => .bind (.check _ _) fun _ =>
        .modify fun _ => ⟨rfl, rfl, rfl⟩

end Fetech.Http
