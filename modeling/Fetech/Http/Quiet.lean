import Fetech.Http

/-! What the steps of a call leave alone that only decide, record and send.

Request, attempts and artifacts of the context stay, and so does what the call counts: its
redirects, its bytes and the origins whose robots it has read (`Exchange.meter`). What is
counted changes where robots and bodies are read and where a redirect is followed. -/
namespace Fetech.Http
open Lib Lib.Url Lib.Program

/-- What a call counts, and the bounds it counts against. -/
structure Meter where
  usage : HttpUsage
  maximumWireBytes : Int
  maximumDecompressedBytes : Int
  redirectStatuses : List Nat
  robotsChecked : List String
  auxiliaryBytes : Nat
  transferred : Nat
  received : List Receipt

def Exchange.meter (s : Exchange) : Meter where
  usage := s.usage
  maximumWireBytes := s.maximumWireBytes
  maximumDecompressedBytes := s.maximumDecompressedBytes
  redirectStatuses := s.redirectStatuses
  robotsChecked := s.robotsChecked
  auxiliaryBytes := s.auxiliaryBytes
  transferred := s.transferred
  received := s.received

/-- From one state of a call to a later one with the same counts. -/
structure Quiet (s t : Exchange) : Prop where
  request : t.context.request = s.context.request
  attempts : t.context.attempts = s.context.attempts
  artifacts : t.context.artifacts = s.context.artifacts
  meter : t.meter = s.meter

namespace Quiet

theorem refl (s : Exchange) : Quiet s s := ⟨rfl, rfl, rfl, rfl⟩

instance : IsPreorder Exchange Quiet where
  refl := refl
  trans _ _ _ hst htu := ⟨htu.request.trans hst.request, htu.attempts.trans hst.attempts,
    htu.artifacts.trans hst.artifacts, htu.meter.trans hst.meter⟩

/-- Records leave request, attempts and artifacts alone. -/
theorem record {f : ExecutionContext → ExecutionContext} (hrequest : ∀ ctx, (f ctx).request = ctx.request)
    (hattempts : ∀ ctx, (f ctx).attempts = ctx.attempts) (hartifacts : ∀ ctx, (f ctx).artifacts = ctx.artifacts) :
    Respects Quiet (record f) := .modify fun _ => ⟨hrequest _, hattempts _, hartifacts _, rfl⟩

theorem recordDecision (d : PolicyDecision) : Respects Quiet (recordDecision d) :=
  record (fun _ => rfl) (fun _ => rfl) fun _ => rfl

theorem recordOutcome (capabilityId : String) (status : OutcomeStatus) (stage : String)
    (details : List (String × Detail)) : Respects Quiet (recordOutcome capabilityId status stage details) :=
  record (fun _ => rfl) (fun _ => rfl) fun _ => rfl

theorem recordRuntimeEvent (eventType actor : String) (payload : List (String × Detail)) :
    Respects Quiet (recordRuntimeEvent eventType actor payload) :=
  record (fun _ => rfl) (fun _ => rfl) fun _ => rfl

theorem sanitized (a : HttpAdapter) (url : String) : Respects Quiet (sanitized a url) := .ofOption _ _

theorem splitUrl (a : HttpAdapter) (url : String) : Respects Quiet (splitUrl a url) := .ofOption _ _

theorem withinDeadline (elapsed : ℚ) : Respects Quiet (withinDeadline elapsed) := .bind .get fun _ => .check _ _

end Quiet

variable (a : HttpAdapter) (call : HttpCall) (h : Hop)

/-! ### Credentials -/

theorem reportRefresh_quiet (capabilityId : String) (accepted : Except (String × HttpError) CredentialMaterial) :
    Respects Quiet (reportRefresh capabilityId accepted) := by
  cases accepted with
  | error e => exact .bind (Quiet.recordRuntimeEvent _ _ _) fun _ => .raise _
  | ok material =>
    exact .bind (Quiet.recordOutcome _ _ _ _) fun _ => .bind (Quiet.recordRuntimeEvent _ _ _) fun _ => .pure _

theorem refreshCredential_quiet (existing : CredentialMaterial) (alreadyAttempted : Bool) :
    Respects Quiet (refreshCredential a h existing alreadyAttempted) :=
  .bind .get fun _ => .bind (.check _ _) fun _ => .bind (.ofOption _ _) fun _ => .bind (.check _ _) fun _ =>
    .bind (.check _ _) fun _ => .bind (Quiet.recordRuntimeEvent _ _ _) fun _ =>
      .bind (.modify fun _ => ⟨rfl, rfl, rfl, rfl⟩) fun _ => reportRefresh_quiet _ _

theorem adoptCredential_quiet (m : CredentialMaterial) : Respects Quiet (adoptCredential m) :=
  .modify fun _ => ⟨rfl, rfl, rfl, rfl⟩

theorem refuseCredential_quiet (url : String) : Respects Quiet (refuseCredential a url) :=
  .bind (Quiet.sanitized a url) fun _ => .bind (Quiet.recordOutcome _ _ _ _) fun _ => .raise _

theorem settleCredential_quiet : Respects Quiet (settleCredential a call h) :=
  .bind .get fun _ => .when _ <| .bind (.ofExcept _) fun _ =>
    .bind (.modify fun _ => ⟨rfl, rfl, rfl, rfl⟩) fun _ => .bind (.ofOption _ _) fun _ =>
      .bind (.when _ (refuseCredential_quiet a _)) fun _ => .when _ <| .bind (.check _ _) fun _ =>
        .bind (refreshCredential_quiet a h _ _) fun _ => adoptCredential_quiet _

/-! ### One hop -/

theorem takeSlot_quiet : Respects Quiet (takeSlot a h) :=
  .bind .get fun _ => .bind (.ofExcept _) fun _ => .bind (Quiet.withinDeadline _) fun _ => .ofExcept _

theorem recordDecisions_kept (decisions : List PolicyDecision) (ctx : ExecutionContext) :
    (recordDecisions decisions ctx).request = ctx.request ∧ (recordDecisions decisions ctx).attempts = ctx.attempts ∧
      (recordDecisions decisions ctx).artifacts = ctx.artifacts := by
  rw [recordDecisions, ExecutionContext.foldl_recordOutcome]
  exact ⟨rfl, rfl, rfl⟩

theorem evaluateCurrent_quiet : Respects Quiet (evaluateCurrent a h) := by
  refine .bind .get fun _ => .bind (.ofExcept _) fun evaluated => .modify fun s => ?_
  obtain ⟨url, decisions, validated⟩ := evaluated
  obtain ⟨hrequest, hattempts, hartifacts⟩ := recordDecisions_kept decisions s.context
  exact ⟨hrequest, hattempts, hartifacts, rfl⟩

theorem enterUrl_quiet : Respects Quiet (enterUrl a) :=
  .bind .get fun _ => .bind (.check _ _) fun _ =>
    .bind (.modify fun _ => ⟨rfl, rfl, rfl, rfl⟩) fun _ =>
      .bind (Quiet.splitUrl a _) fun _ => .check _ _

theorem withholdCookies_quiet : Respects Quiet (withholdCookies a) := by
  refine .bind .get fun s => ?_
  split
  · exact .pure _
  · exact .bind (.ofOption _ _) fun _ => .when _ (.modify fun _ => ⟨rfl, rfl, rfl, rfl⟩)

theorem arrive_quiet : Respects Quiet (arrive a call h) :=
  .bind (takeSlot_quiet a h) fun _ => .bind (evaluateCurrent_quiet a h) fun _ =>
    .bind (settleCredential_quiet a call h) fun _ => .bind (enterUrl_quiet a) fun _ => withholdCookies_quiet a

theorem robotsFailed_quiet {α : Type} (err : HttpError) : Respects Quiet (robotsFailed err : HttpM α) := by
  cases err with
  | transport typeName timeout => exact .bind (Quiet.recordOutcome _ _ _ _) fun _ => .raise _
  | _ => exact .raise _

theorem judgeRobots_quiet (robotsUrl target : String) (body : List UInt8) :
    Respects Quiet (judgeRobots a robotsUrl target body) :=
  .bind (.ofOption _ _) fun _ => .bind (Quiet.sanitized a target) fun _ =>
    .bind (Quiet.recordOutcome _ _ _ _) fun _ => .ite _ (Quiet.recordDecision _) (.raise _)

theorem recordRateLimit_quiet : Respects Quiet (recordRateLimit a) :=
  .bind .get fun _ => .bind (Quiet.sanitized a _) fun _ => .bind (Quiet.recordDecision _) fun _ =>
    Quiet.recordOutcome _ _ _ _

theorem recordCredentialUse_quiet (m : CredentialMaterial) : Respects Quiet (recordCredentialUse m) :=
  .bind .get fun _ => .when _ <| .bind (Quiet.recordOutcome _ _ _ _) fun _ =>
    .bind (Quiet.recordOutcome _ _ _ _) fun _ => .modify fun _ => ⟨rfl, rfl, rfl, rfl⟩

theorem applyCredential_quiet : Respects Quiet (applyCredential a) := by
  refine .bind .get fun s => ?_
  split
  · exact .pure _
  · refine .bind (.ofOption _ _) fun _ => .bind (Quiet.sanitized a _) fun _ => .ite _ ?_ ?_
    · exact .bind (Quiet.recordDecision _) fun _ => .bind (recordCredentialUse_quiet _) fun _ => .pure _
    · exact .bind (Quiet.recordDecision _) fun _ => .bind (Quiet.recordOutcome _ _ _ _) fun _ => .pure _

theorem applyCookies_quiet (headers : Dict String String) : Respects Quiet (applyCookies a call headers) := by
  refine .bind .get fun s => .ite _ (.bind (.ofOption _ _) fun _ => .ite _ ?_ (.pure _)) (.pure _)
  refine .bind (.ofExcept _) fun rendered => ?_
  obtain ⟨cookies, header⟩ := rendered
  cases header with
  | none => exact .pure _
  | some text => exact .bind (.modify fun _ => ⟨rfl, rfl, rfl, rfl⟩) fun _ => .pure _

theorem sendRequest_quiet (robotsFetched : Bool) (headers : Dict String String) (cookies : List EphemeralCookie) :
    Respects Quiet (sendRequest h robotsFetched headers cookies) :=
  .bind (.modify fun _ => ⟨rfl, rfl, rfl, rfl⟩) fun _ =>
    .bind (.when _ (.bind (Quiet.withinDeadline _) fun _ => .ofExcept _)) fun _ =>
      .bind (.modify fun _ => ⟨rfl, rfl, rfl, rfl⟩) fun _ => .bind (.ofExcept _) fun _ =>
        .bind (.modify fun _ => ⟨rfl, rfl, rfl, rfl⟩) fun _ => .pure _

/-! ### The answer of a hop -/

theorem refuseReplay_quiet (redirected : String) : Respects Quiet (refuseReplay a redirected) :=
  .bind (Quiet.sanitized a _) fun _ => .raise _

theorem switchMethod_quiet (status : Nat) (redirected : String) : Respects Quiet (switchMethod a status redirected) :=
  .bind .get fun _ => .ite _ (.modify fun _ => ⟨rfl, rfl, rfl, rfl⟩)
    (.ite _ (refuseReplay_quiet a _) (.pure _))

theorem handCookies_quiet (response : Response) (redirected : String) :
    Respects Quiet (handCookies a h response redirected) :=
  .bind .get fun _ => .ite _
    (.bind (.ofExcept _) fun _ => .modify fun _ => ⟨rfl, rfl, rfl, rfl⟩)
    (.modify fun _ => ⟨rfl, rfl, rfl, rfl⟩)

theorem redirectTo_quiet (response : Response) (redirected : String) :
    Respects Quiet (redirectTo a call h response redirected) :=
  .bind (.when _ (refuseReplay_quiet a _)) fun _ => .bind (switchMethod_quiet a _ _) fun _ =>
    .bind (.when _ (handCookies_quiet a h _ _)) fun _ =>
      .modify fun _ => ⟨rfl, rfl, rfl, rfl⟩

theorem retryExpired_quiet (m : CredentialMaterial) : Respects Quiet (retryExpired a h m) :=
  .bind .get fun _ => .bind (.check _ _) fun _ => .bind (refreshCredential_quiet a h _ _) fun _ =>
    .bind (adoptCredential_quiet _) fun _ => .modify fun _ => ⟨rfl, rfl, rfl, rfl⟩

/-! ### HTTP/3 -/

theorem enterHttp3_quiet : Respects Quiet (enterHttp3 a) :=
  .bind .get fun _ => .bind (.when _ (.bind (Quiet.recordOutcome _ _ _ _) fun _ => .raise _)) fun _ =>
    .bind (Quiet.splitUrl a _) fun _ => .bind (.check _ _) fun _ => .bind (.check _ _) fun _ =>
      .bind (.modify fun _ => ⟨rfl, rfl, rfl, rfl⟩) fun _ => .check _ _

theorem sendHttp3_quiet : Respects Quiet (sendHttp3 a h) :=
  .bind (.modify fun _ => ⟨rfl, rfl, rfl, rfl⟩) fun _ => .ofExcept _

end Fetech.Http
