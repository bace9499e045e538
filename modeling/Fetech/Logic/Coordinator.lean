import Fetech.Logic.Clingo

/-! What a backend can do to a plan, and to planning.

A proposal is accepted with the baseline's request and nodes only, and it is bound to the baseline's
execution request; the fallback proposes the baseline itself. So whatever a backend answers, the
plan that is executed is the deterministic planner's, and with the fallback a backend whose failures
are handled cannot make planning fail. -/
namespace Fetech.Logic
open Planning Lib Lib.Except

/-! ### Binding -/

/-- That a request, normalized once more, is the one a plan publishes. -/
def Binds (p : Planner) (published request : FetchRequest) : Prop :=
  ∃ target, normalizeUrl p.codecs request.target = some target ∧
    {request with target := p.sanitizeUrlForRequest target {request with target}} = published

/-- A plan with the execution request that binding gives it. -/
structure Bound (p : Planner) (plan : Plan) (request : FetchRequest) (result : Plan) : Prop where
  sameRequest : result.request = plan.request
  sameNodes : result.nodes = plan.nodes
  sameDeterminism : result.deterministic = plan.deterministic
  binds : Binds p plan.request request
  execution : ∃ target, normalizeUrl p.codecs request.target = some target ∧
    result.executionRequest = {request with target}

section
variable {p : Planner} {plan result : Plan} {request : FetchRequest}

theorem bound_of_ok (h : bindExecutionRequest p plan request = .ok result) : Bound p plan request result := by
  simp only [bindExecutionRequest, bind_eq_ok, ofOption_eq_ok] at h
  obtain ⟨target, htarget, h⟩ := h
  split at h
  · rename_i hrequest
    cases h
    exact ⟨rfl, rfl, rfl, ⟨target, htarget, hrequest⟩, target, htarget, rfl⟩
  · exact absurd h error_ne_ok

theorem exists_bind_iff : (∃ result, bindExecutionRequest p plan request = .ok result) ↔ Binds p plan.request request := by
  simp only [bindExecutionRequest, bind_eq_ok, ofOption_eq_ok]
  constructor
  · intro h
    obtain ⟨result, target, htarget, h⟩ := h
    split at h
    · rename_i hrequest
      exact ⟨target, htarget, hrequest⟩
    · exact absurd h error_ne_ok
  · intro h
    obtain ⟨target, htarget, hrequest⟩ := h
    exact ⟨_, target, htarget, dif_pos hrequest⟩

/-- Binding that fails is handled. -/
theorem bind_meets {E : Failure → Prop} (hE : ∀ err, err.handled = true → E err) :
    Meets (bindExecutionRequest p plan request) (Bound p plan request) E := by
  cases hbound : bindExecutionRequest p plan request with
  | ok result => exact bound_of_ok hbound
  | error err =>
    apply hE
    unfold bindExecutionRequest at hbound
    cases htarget : normalizeUrl p.codecs request.target with
    | none =>
      rw [htarget] at hbound
      cases hbound
      rfl
    | some target =>
      rw [htarget] at hbound
      simp only [ofOption, bind, Except.bind] at hbound
      split at hbound
      · cases hbound
      · cases hbound
        rfl

/-- A plan with the same request and nodes is bound to the same. -/
theorem Bound.of_same {plan' : Plan} (h : Bound p plan request result) (hrequest : plan.request = plan'.request)
    (hnodes : plan.nodes = plan'.nodes) (hdeterministic : plan.deterministic = plan'.deterministic) :
    Bound p plan' request result :=
  ⟨h.sameRequest.trans hrequest, h.sameNodes.trans hnodes, h.sameDeterminism.trans hdeterministic, hrequest ▸ h.binds,
    h.execution⟩

end

/-! ### The check of a proposal -/

section
variable {c : LogicCoordinator} {request : FetchRequest} {hbudget : request.budget.Valid} {baseline plan : Plan}

theorem planBaseline_eq_ok : c.planBaseline request hbudget = .ok baseline ↔
    ∃ plan, c.planner.plan request hbudget = .ok plan ∧ baseline = {toFetchPlan := plan} := by
  unfold LogicCoordinator.planBaseline
  cases c.planner.plan request hbudget with
  | error err => simp [Except.mapError, Except.map]
  | ok plan => simp [Except.mapError, Except.map, eq_comm]

theorem registered_baseline (h : c.planBaseline request hbudget = .ok baseline) :
    ∀ node ∈ baseline.nodes, (c.planner.registry.get node.capabilityId).isSome = true := by
  obtain ⟨plan, hplan, rfl⟩ := planBaseline_eq_ok.mp h
  obtain ⟨-, -, -, -, -, -, -, hvalid, -⟩ := plan_eq_ok hplan
  exact validateNodes_registered hvalid

theorem forM_meets {E : Failure → Prop} {nodes : List PlanNode} {check : PlanNode → Except Failure Unit}
    (h : ∀ node ∈ nodes, Meets (check node) (fun _ => True) E) : Meets (nodes.forM check) (fun _ => True) E := by
  induction nodes with
  | nil => trivial
  | cons node rest ih =>
    rw [List.forall_mem_cons] at h
    show Meets (check node >>= fun _ => rest.forM check) _ _
    rw [meets_bind]
    exact meets_mono h.1 (fun _ _ => ih h.2) fun _ => id

/-- A plan that passes the check is the baseline, as far as it is executed; a refusal is handled. -/
theorem validatePlan_meets {E : Failure → Prop} (hE : ∀ err, err.handled = true → E err)
    (hbaseline : c.planBaseline request hbudget = .ok baseline) :
    Meets (c.validatePlan plan request hbudget)
      (fun _ => plan.request = baseline.request ∧ plan.nodes = baseline.nodes ∧ plan.deterministic = true) E := by
  simp only [LogicCoordinator.validatePlan, hbaseline, meets_bind, meets_ok, meets_require, decide_eq_true_eq]
  refine ⟨fun hrequest => ⟨fun hdeterministic => ⟨fun _ => ⟨fun hnodes => ?_, fun _ => hE _ rfl⟩, fun _ => hE _ rfl⟩,
    fun _ => hE _ rfl⟩, fun _ => hE _ rfl⟩
  have hcheck : Meets (plan.nodes.forM (c.checkNode request)) (fun _ => True) E := by
    apply forM_meets
    intro node hnode
    rw [hnodes] at hnode
    simp only [LogicCoordinator.checkNode, meets_bind, meets_require]
    refine ⟨fun _ => ⟨fun _ => trivial, fun _ => hE _ rfl⟩, fun hmissing => ?_⟩
    exact absurd ((registered_baseline hbaseline node hnode).symm.trans hmissing) Bool.true_eq_false_eq_False
  exact meets_mono hcheck (fun _ _ => ⟨hrequest, hnodes, hdeterministic⟩) fun _ => id

/-! ### What is planned -/

/-- What is tried proposes the baseline; its failures are the backend's or handled. -/
theorem attempt_meets {E : Failure → Prop} (hE : ∀ err, err.handled = true → E err)
    (hbaseline : c.planBaseline request hbudget = .ok baseline) {backend : PlannerBackend}
    (hpropose : Meets (backend.propose request baseline) (fun _ => True) E) :
    Meets (c.attempt backend baseline request hbudget)
      (fun proposal => Bound c.planner baseline baseline.executionRequest proposal.plan) E := by
  have hdeterministic : baseline.deterministic = true := by
    obtain ⟨plan, -, rfl⟩ := planBaseline_eq_ok.mp hbaseline
    rfl
  simp only [LogicCoordinator.attempt, meets_bind]
  refine meets_mono hpropose (fun proposal _ => ?_) fun _ => id
  refine meets_mono (validatePlan_meets hE hbaseline) (fun _ hsame => ?_) fun _ => id
  obtain ⟨hrequest, hnodes, hplan⟩ := hsame
  refine meets_mono (bind_meets hE) (fun result hbound => ?_) fun _ => id
  exact hbound.of_same hrequest hnodes (hplan.trans hdeterministic.symm)

/-- The fallback proposes the baseline. -/
theorem fallBack_meets {E : Failure → Prop} (hE : ∀ err, err.handled = true → E err) (name : String) (cause : Failure) :
    Meets (c.fallBack name cause baseline request)
      (fun proposal => Bound c.planner baseline baseline.executionRequest proposal.plan) E := by
  simp only [LogicCoordinator.fallBack, pythonPlanner, meets_bind, meets_ok]
  exact meets_mono (bind_meets hE) (fun result hbound => hbound.of_same rfl rfl rfl) fun _ => id

theorem plan_bound {proposal : PlanProposal} (h : c.plan request hbudget = .ok proposal) :
    ∃ plan, c.planner.plan request hbudget = .ok plan ∧
      Bound c.planner {toFetchPlan := plan} plan.executionRequest proposal.plan := by
  have htrivial : ∀ err : Failure, err.handled = true → True := fun _ _ => trivial
  simp only [LogicCoordinator.plan, bind_eq_ok] at h
  obtain ⟨baseline, hbaseline, backend, -, h⟩ := h
  have hpropose : Meets (backend.propose request baseline) (fun _ => True) fun _ => True := by
    cases backend.propose request baseline <;> trivial
  have hbound : Bound c.planner baseline baseline.executionRequest proposal.plan := by
    cases hattempt : c.attempt backend baseline request hbudget with
    | ok tried =>
      rw [hattempt] at h
      cases h
      exact meets_of_ok (attempt_meets htrivial hbaseline hpropose) hattempt
    | error cause =>
      rw [hattempt] at h
      dsimp only at h
      split at h
      · cases h
      · exact meets_of_ok (fallBack_meets htrivial backend.name cause) h
  obtain ⟨plan, hplan, rfl⟩ := planBaseline_eq_ok.mp hbaseline
  exact ⟨plan, hplan, hbound⟩

/-- With the fallback, a backend whose failures are handled leaves a plan that can be bound. -/
theorem exists_plan {plan : FetchPlan} (hplan : c.planner.plan request hbudget = .ok plan)
    (hbinds : Binds c.planner plan.request plan.executionRequest) (hclingo : c.plannerBackend = "clingo")
    (hfallback : c.logicFallback = true) (hname : c.clingo.name ≠ "python")
    (hhandled : ∀ baseline err, c.clingo.propose request baseline = .error err → err.handled = true) :
    ∃ proposal, c.plan request hbudget = .ok proposal := by
  have hbaseline : c.planBaseline request hbudget = .ok {toFetchPlan := plan} := planBaseline_eq_ok.mpr ⟨plan, hplan, rfl⟩
  have hbackend : c.backend = .ok c.clingo := by rw [LogicCoordinator.backend, hclingo]; rfl
  have hpropose : Meets (c.clingo.propose request {toFetchPlan := plan}) (fun _ => True) (·.handled = true) :=
    meets_iff.mpr ⟨fun _ _ => trivial, hhandled _⟩
  have hattempted := attempt_meets (fun _ => id) hbaseline hpropose
  simp only [LogicCoordinator.plan, hbaseline, hbackend, bind, Except.bind]
  cases hattempt : c.attempt c.clingo {toFetchPlan := plan} request hbudget with
  | ok proposal => exact ⟨proposal, rfl⟩
  | error cause =>
    rw [hattempt, meets_error] at hattempted
    have hgone : (!cause.handled || !c.logicFallback || c.clingo.name == "python") = false := by
      simp [hattempted, hfallback, hname]
    simp only [hgone, Bool.false_eq_true, if_false]
    have hnoted : ∀ noted : Plan, noted.request = plan.request →
        ∃ result, bindExecutionRequest c.planner noted plan.executionRequest = .ok result := by
      intro noted hrequest
      exact exists_bind_iff.mpr (hrequest ▸ hbinds)
    obtain ⟨result, hresult⟩ := hnoted
      {plan with classifier := "python-rules-v1", warnings := [{backend := c.clingo.name, cause}]} rfl
    refine ⟨_, bind_eq_ok.mpr ⟨_, rfl, bind_eq_ok.mpr ⟨result, hresult, rfl⟩⟩⟩

/-- **A backend cannot change a plan**: what `plan` returns has the baseline's request and nodes and
executes the baseline's request. With the fallback, **nor can it make planning fail**, if its own
failures are handled: a plan is returned whenever the baseline is and can be bound once more. -/
theorem plan_keeps_baseline (c : LogicCoordinator) (request : FetchRequest) (hbudget : request.budget.Valid) :
    (∀ proposal, c.plan request hbudget = .ok proposal → ∃ baseline, c.planner.plan request hbudget = .ok baseline ∧
      proposal.plan.request = baseline.request ∧ proposal.plan.nodes = baseline.nodes ∧
      proposal.plan.deterministic = true ∧
      ∃ target, normalizeUrl c.planner.codecs baseline.executionRequest.target = some target ∧
        proposal.plan.executionRequest = {baseline.executionRequest with target}) ∧
    (c.plannerBackend = "clingo" → c.logicFallback = true → c.clingo.name ≠ "python" →
      (∀ baseline err, c.clingo.propose request baseline = .error err → err.handled = true) →
      ((∃ proposal, c.plan request hbudget = .ok proposal) ↔ ∃ baseline, c.planner.plan request hbudget = .ok baseline ∧
        Binds c.planner baseline.request baseline.executionRequest)) := by
  constructor
  · intro proposal h
    obtain ⟨plan, hplan, hbound⟩ := plan_bound h
    exact ⟨plan, hplan, hbound.sameRequest, hbound.sameNodes, hbound.sameDeterminism, hbound.execution⟩
  · intro hclingo hfallback hname hhandled
    constructor
    · intro h
      obtain ⟨proposal, hproposal⟩ := h
      obtain ⟨plan, hplan, hbound⟩ := plan_bound hproposal
      exact ⟨plan, hplan, hbound.binds⟩
    · intro h
      obtain ⟨plan, hplan, hbinds⟩ := h
      exact exists_plan hplan hbinds hclingo hfallback hname hhandled

/-- The plan with its first node given to another adapter, and a backend that proposes it. -/
def mutatedPlan : Plan :=
  {headPlan with nodes := headPlan.nodes.modifyHead fun node => {node with adapter := "untrusted"}}

def mutatingBackend : PlannerBackend where
  name := "clingo"
  propose _ _ := .ok {backend := "clingo", status := .succeeded, plan := mutatedPlan}

def mutatedCoordinator : LogicCoordinator where
  planner := headPlanner
  plannerBackend := "clingo"
  clingo := mutatingBackend

theorem plan_keeps_baseline_mutated :
    ∃ proposal, mutatedCoordinator.plan headRequest (by decide) = .ok proposal ∧ proposal.plan.nodes = headPlan.nodes := by
  have hplan : headPlanner.plan headRequest (by decide) = .ok headPlan.toFetchPlan := by rfl
  obtain ⟨hkept, hplanned⟩ := plan_keeps_baseline mutatedCoordinator headRequest (by decide)
  have hbinds : Binds headPlanner headPlan.request headPlan.executionRequest := ⟨"https://example.com/", by rfl, rfl⟩
  have hhandled : ∀ baseline err, mutatingBackend.propose headRequest baseline = .error err → err.handled = true :=
    fun _ _ herror => absurd herror.symm error_ne_ok
  obtain ⟨proposal, hproposal⟩ := (hplanned rfl rfl (by decide) hhandled).mpr ⟨_, hplan, hbinds⟩
  obtain ⟨baseline, hbaseline, -, hnodes, -⟩ := hkept proposal hproposal
  cases hplan.symm.trans hbaseline
  exact ⟨proposal, hproposal, hnodes⟩

end

end Fetech.Logic
