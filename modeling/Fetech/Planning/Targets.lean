import Fetech.Planning
import Fetech.Documents
import Fetech.Security.Stability

/-! What a second normalisation of its target means for a plan (`fetech/planning.py` and
`FetchPlan.bind_execution_request`).

The planner normalises the target of a request and publishes it; binding the request that is
executed normalises it once more and compares. The two agree exactly where normalisation is
idempotent. -/
namespace Fetech.Planning
open Lib.Url Lib.Except

/-! ### Errors other than a mismatch -/

/-- A computation that does not end with a mismatch. -/
def Matches {α : Type} (x : Except PlanError α) : Prop := x ≠ .error .mismatch

namespace Matches
variable {α β : Type}

theorem ok (a : α) : Matches (.ok a) := fun h => by cases h

theorem error {err : PlanError} (h : err ≠ .mismatch) : Matches (.error err : Except PlanError α) := fun herror => by
  cases herror
  exact h rfl

theorem bind {x : Except PlanError α} {f : α → Except PlanError β} (hx : Matches x)
    (hf : ∀ a, x = .ok a → Matches (f a)) : Matches (x >>= f) := by
  cases x with
  | error err => exact error fun h => hx (congrArg Except.error h)
  | ok a => exact hf a rfl

theorem require {ok' : Bool} {err : PlanError} (h : err ≠ .mismatch) : Matches (require ok' err) := by
  cases ok' with
  | true => exact ok ()
  | false => exact error h

theorem ofOption {o : Option α} {err : PlanError} (h : err ≠ .mismatch) : Matches (ofOption err o) := by
  cases o with
  | none => exact error h
  | some a => exact ok a

end Matches

namespace Planner
variable (p : Planner)

theorem permitted_matches (capabilityId : String) (request : FetchRequest) :
    Matches (p.permitted capabilityId request) := by
  unfold permitted
  split
  · exact .error PlanError.noConfusion
  · exact .ok _

theorem filterPermitted_matches {α : Type} (request : FetchRequest) (capability : α → String) (l : List α) :
    Matches (p.filterPermitted request capability l) := by
  induction l with
  | nil => exact .ok _
  | cons a rest ih =>
    exact (p.permitted_matches _ _).bind fun keep _ => ih.bind fun kept _ => .ok _

theorem mainNodes_matches (d : Draft) (available : Option Bool) (suffix : String) :
    Matches (d.mainNodes p.codecs available suffix) := by
  unfold Draft.mainNodes
  split
  · exact .ok _
  · cases d.family with
    | web =>
      dsimp only
      split
      · exact .ok _
      · cases available with
        | none => exact .error PlanError.noConfusion
        | some available => exact .ok _
    | document => exact .ok _
    | media => exact .ok _
    | archive => exact .ok _
    | api =>
      show Matches ((d.apiCapability p.codecs suffix).map _)
      have hapi : Matches (d.apiCapability p.codecs suffix) := by
        unfold Draft.apiCapability
        split
        · exact .ok _
        · exact .ok _
        · exact .error PlanError.noConfusion
      cases hresult : d.apiCapability p.codecs suffix with
      | error err =>
        rw [hresult] at hapi
        exact .error fun h => hapi (congrArg Except.error h)
      | ok capability => exact .ok _
    | cache => exact .ok _

theorem ragProducer_matches (d : Draft) (nodes main : List PlanNode) : Matches (p.ragProducer d nodes main) := by
  unfold ragProducer
  split
  · exact .ok _
  · refine (p.permitted_matches _ _).bind fun keep _ => (Matches.require PlanError.noConfusion).bind fun _ _ => ?_
    split
    · exact .ok _
    · exact .ok _

theorem browserProducer_matches (d : Draft) (nodes : List PlanNode) : Matches (p.browserProducer d nodes) := by
  unfold browserProducer
  split
  · exact .ok _
  · refine (Matches.ofOption PlanError.noConfusion).bind fun plain _ =>
      (Matches.require PlanError.noConfusion).bind fun _ _ => ?_
    split
    · exact .ok _
    · exact (p.permitted_matches _ _).bind fun keep _ => (Matches.require PlanError.noConfusion).bind fun _ _ => .ok _

theorem draftNodes_matches (d : Draft) : Matches (p.draftNodes d) :=
  (Matches.require PlanError.noConfusion).bind fun _ _ =>
    (p.filterPermitted_matches _ _ _).bind fun _ _ =>
      (Matches.ofOption PlanError.noConfusion).bind fun suffix _ =>
        (p.mainNodes_matches d _ suffix).bind fun _ _ =>
          (p.ragProducer_matches d _ _).bind fun _ _ => (p.browserProducer_matches d _).bind fun _ _ => .ok _

theorem validateNodes_matches (nodes l : List PlanNode) : Matches (p.validateNodes nodes l) := by
  induction l with
  | nil => exact .ok _
  | cons node rest ih =>
    exact (Matches.require PlanError.noConfusion).bind fun _ _ => (Matches.require PlanError.noConfusion).bind fun _ _ => ih

theorem validateOutputs_matches (d : Draft) (nodes : List PlanNode) :
    Matches (p.validateRequestedSchedulableOutputs d nodes) :=
  (Matches.require PlanError.noConfusion).bind fun _ _ => Matches.require PlanError.noConfusion

theorem draft_matches (request : FetchRequest) : Matches (p.draft request) :=
  (Matches.ofOption PlanError.noConfusion).bind fun _ _ => (Matches.ofOption PlanError.noConfusion).bind fun _ _ => .ok _

/-- Where normalising the target again changes nothing, the request that is executed is the
published one. -/
theorem bind_matches {d : Draft} (hbudget : d.request.budget.Valid) (nodes : List PlanNode)
    (hagain : normalizeUrl p.codecs d.target = some d.target) : Matches (p.bind d hbudget nodes) := by
  have hsame : ((p.sanitizeUrlForRequest d.target {d.request with target := d.target}) ==
      p.sanitizeUrlForRequest d.target d.request) = true := beq_self_eq_true _
  unfold bind
  rw [hagain]
  show Matches (Lib.Except.require (p.sanitizeUrlForRequest d.target {d.request with target := d.target} ==
    p.sanitizeUrlForRequest d.target d.request) PlanError.mismatch >>= fun _ => _)
  rw [hsame]
  exact .ok _

/-- A plan never fails with a mismatch if its target stays as it is. -/
theorem plan_matches {request : FetchRequest} (hbudget : request.budget.Valid) {url : String}
    (hurl : normalizeUrl p.codecs request.target = some url) (hagain : normalizeUrl p.codecs url = some url) :
    Matches (p.plan request hbudget) := by
  refine (p.draft_matches request).bind fun ⟨d, hd⟩ hdraft => ?_
  have htarget : d.target = url := by
    simp only [draft, bind_eq_ok, ofOption_eq_ok] at hdraft
    obtain ⟨target, htarget, family, -, hreturn⟩ := hdraft
    cases hreturn
    exact Option.some.inj (htarget.symm.trans hurl)
  refine (p.draftNodes_matches d).bind fun nodes _ => (p.filterPermitted_matches _ _ _).bind fun filtered _ =>
    (Matches.require PlanError.noConfusion).bind fun _ _ => (p.validateNodes_matches _ _).bind fun _ _ =>
      (p.validateOutputs_matches d filtered).bind fun _ _ => p.bind_matches _ _ ?_
  rw [htarget]
  exact hagain

end Planner

/-! ### The claim of one spelling -/

/-- A normal form is one: normalising it again and taking its origin give what they gave, and no
plan for the target fails because the request does not match it. -/
structure Settled (c : Codecs) (target url : String) : Prop where
  again : normalizeUrl c url = some url
  origin : canonicalOrigin c url = canonicalOrigin c target
  planned : ∀ (p : Planner) (request : FetchRequest) (hbudget : request.budget.Valid), p.codecs = c →
    request.target = target → p.plan request hbudget ≠ .error .mismatch

/-- Nothing is left for a second normalisation: the target does not end with white space before
its fragment, and its host, as the codec has it, is a name or an address that reads back. -/
def SteadyTarget (c : Codecs) (target : String) : Prop :=
  ∀ parts encoded, urlsplit c.toTables (strip target.toList) = some parts →
    c.idna (parts.hostname c.toTables) = some encoded → Steady c parts encoded

/-- **Normalisation is idempotent, keeps origins and keeps plans bound exactly on steady
targets**, whatever else the accepted target is. -/
theorem settled_iff (c : Codecs) (hc : c.Idna) (target url : String) (hurl : normalizeUrl c target = some url) :
    Settled c target url ↔ SteadyTarget c target := by
  obtain ⟨parts, encoded, port, hread, rfl⟩ := normalizeUrl_iff.mp hurl
  constructor
  · intro h parts' encoded' hparts hencoded
    cases hread.split.symm.trans hparts
    cases hread.idna.symm.trans hencoded
    exact (hread.again_iff hc).mp h.again
  · intro h
    have hsteady := h parts encoded hread.split hread.idna
    have hagain := (hread.again_iff hc).mpr hsteady
    refine ⟨hagain, hread.canonicalOrigin_again hc hsteady, fun p request hbudget hcodecs htarget => ?_⟩
    cases hcodecs
    cases htarget
    exact p.plan_matches hbudget hurl hagain

/-- As much of the manifest as a request to crawl reads. -/
def crawlPlanner : Planner where
  registry := {entries := [
    {id := "url_validation", kind := .policy}, {id := "url_normalisation", kind := .operation},
    {id := "http_get", kind := .operation}, {id := "depth_limited_crawl", kind := .operation}]}
  codecs := plainCodecs
  sanitizeUrl target redactQuery := sanitizeUrlField plainCodecs redactQuery target

theorem settled_iff_page : Settled plainCodecs "HTTP://Example.org:80/a b#c" "http://example.org/a b" := by
  have hurl : normalizeUrl plainCodecs "HTTP://Example.org:80/a b#c" = some "http://example.org/a b" := by
    decide +kernel
  refine (settled_iff plainCodecs plainCodecs_idna _ _ hurl).mpr fun parts encoded hparts hencoded => ?_
  have hsplit : urlsplit plainCodecs.toTables (strip "HTTP://Example.org:80/a b#c".toList) =
      some ⟨"http".toList, "Example.org:80".toList, "/a b".toList, [], ['c']⟩ := by decide +kernel
  cases hparts.symm.trans hsplit
  have hidna : plainCodecs.idna (SplitResult.hostname plainCodecs.toTables
      ⟨"http".toList, "Example.org:80".toList, "/a b".toList, [], ['c']⟩) = some "example.org".toList := by
    decide +kernel
  cases hencoded.symm.trans hidna
  refine ⟨?_, by decide +kernel, by decide +kernel, fun hcolon => ?_, fun _ => by decide +kernel⟩
  · intro ch hch
    have hlast : ("/a b".toList ++ withQuery []).getLast? = some 'b' := by decide +kernel
    cases hlast.symm.trans hch
    decide
  · exact absurd hcolon (by decide +kernel)

/-- **White space before a fragment** ends a normal form, and is stripped the next time: the
planner fails on the request it has just normalised. -/
theorem white_space_before_fragment :
    normalizeUrl plainCodecs "http://example.org/a #x" = some "http://example.org/a " ∧
      ¬Settled plainCodecs "http://example.org/a #x" "http://example.org/a " ∧
      crawlPlanner.plan {target := "http://example.org/a #x", intent := "crawl"} (by decide) = .error .mismatch := by
  refine ⟨by decide +kernel, fun h => ?_, by rfl⟩
  have hnext : normalizeUrl plainCodecs "http://example.org/a " = some "http://example.org/a" := by decide +kernel
  exact absurd (Option.some.inj (h.again.symm.trans hnext)) (by decide)

end Fetech.Planning
