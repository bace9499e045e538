import Fetech.Executor.Attempts

/-! The attempt budget of a run.

The retry loop checks the budget before every call, a batch is no larger than what is
left and its branches share it. The one attempt nobody counts is the one the executor
itself records for a node that starts with no time left; `WithinAttempts` asks for
room for it. -/
namespace Fetech.Executor

/-- The adapter appends an attempt. -/
def TaskEvent.opensAttempt : TaskEvent → Bool
  | .op (.addAttempt _) => true
  | _ => false

/-- An adapter call appends at most one attempt. -/
def Task.opensOnce (t : Task) (ev : TaskEvent) : Prop :=
  ev.opensAttempt = true → t.context.attempts.length ≤ t.callStart

/-- `attempt.started` is written. -/
def Task.isEntering (t : Task) (ev : TaskEvent) : Bool :=
  match t.pc, ev with
  | .starting, .resume => true
  | _, _ => false

/-- A node that starts past the deadline finds room for one more attempt. -/
def Task.startsInTime (e : Engine) (plan : FetchPlan) (elapsed : ℚ) (t : Task) (ev : TaskEvent) : Prop :=
  t.isEntering ev = true → enforceApproval e plan t.node = none →
    plan.request.budget.deadlineSeconds - elapsed ≤ 0 →
      (t.context.attempts.length : Int) < t.context.request.budget.attempts

def WithinAttempts (e : Engine) (plan : FetchPlan) : Discipline where
  task elapsed t ev := t.opensOnce ev ∧ t.startsInTime e plan elapsed ev
  cancel _ := True

instance (e : Engine) (plan : FetchPlan) (q : ℚ) (t : Task) (ev : TaskEvent) :
    Decidable ((WithinAttempts e plan).task q t ev) :=
  inferInstanceAs (Decidable ((_ = true → _ ≤ _) ∧ (_ = true → _ = none → _ ≤ _ → _ < _)))

instance (e : Engine) (plan : FetchPlan) (t : Task) : Decidable ((WithinAttempts e plan).cancel t) :=
  inferInstanceAs (Decidable True)

/-- The attempts of a task are within its budget, with room for the one its deadline
handler may add. -/
structure Task.AttemptsWithin (ctx : ExecutionContext) (t : Task) : Prop where
  request : t.context.request = ctx.request
  limit : (t.context.attempts.length : Int) ≤ t.context.request.budget.attempts
  inCall : ∀ k, t.pc = .calling k → (t.callStart : Int) < t.context.request.budget.attempts ∧
    t.attemptCount ≤ t.callStart ∧ t.callStart ≤ t.context.attempts.length ∧
    t.context.attempts.length ≤ t.callStart + 1
  inBackoff : ∀ k, t.pc = .backoff k → t.attemptCount ≤ t.context.attempts.length ∧
    (t.context.attempts.length = t.attemptCount →
      (t.context.attempts.length : Int) < t.context.request.budget.attempts)

section
variable {e : Engine} {plan : FetchPlan} {elapsed : ℚ} {id : Nat} {t t' : Task} {ev : TaskEvent}
  {ctx : ExecutionContext}

/-- Outside the adapter only the limit is left to say. -/
theorem Task.AttemptsWithin.outside (hrequest : t.context.request = ctx.request)
    (hlimit : (t.context.attempts.length : Int) ≤ t.context.request.budget.attempts)
    (hout : t.pc.inAdapter = false) : t.AttemptsWithin ctx := by
  refine ⟨hrequest, hlimit, ?_, ?_⟩ <;> intro k hk <;> rw [hk] at hout <;> cases hout

/-- There is room for the deadline handler's own attempt. -/
theorem Task.AttemptsWithin.room (h : t.AttemptsWithin ctx) (hin : t.pc.inAdapter = true)
    (hlen : t.context.attempts.length = t.attemptCount) :
    (t.context.attempts.length : Int) < t.context.request.budget.attempts := by
  cases hpc : t.pc with
  | calling k =>
    have := h.inCall k hpc
    omega
  | backoff k => exact (h.inBackoff k hpc).2 hlen
  | _ =>
    rw [hpc] at hin
    cases hin

theorem handledAttempts_length_of_ne (err : AdapterError) (hne : err ≠ .timeout) :
    (t.handledAttempts e err).length = t.context.attempts.length := by
  unfold Task.handledAttempts
  split
  · exact absurd rfl hne
  · exact Task.closeLast_length _ _ _ _

theorem ensureDeadline_length (node : PlanNode) (n : Nat) :
    (ensureDeadlineAttemptFailed e ctx node n).length =
      if ctx.attempts.length = n then ctx.attempts.length + 1 else ctx.attempts.length := by
  unfold ensureDeadlineAttemptFailed
  split
  · simp
  · exact Task.closeLast_length _ _ _ _

/-- A handler keeps the limit if there is room where it is the deadline's. -/
theorem handle_within (err : AdapterError) (hrequest : t.context.request = ctx.request)
    (hlimit : (t.context.attempts.length : Int) ≤ t.context.request.budget.attempts)
    (hroom : err = .timeout → t.context.attempts.length = t.attemptCount →
      (t.context.attempts.length : Int) < t.context.request.budget.attempts) :
    (t.handle e err).AttemptsWithin ctx := by
  have hreq : (t.handle e err).context.request = t.context.request := (Task.handle_follows err).grows.request
  refine .outside (hreq.trans hrequest) ?_ rfl
  rw [hreq]
  show ((t.handledContext e err).attempts.length : Int) ≤ _
  rw [Task.handledContext_attempts]
  by_cases herr : err = .timeout
  · subst herr
    simp only [Task.handledAttempts]
    rw [ensureDeadline_length]
    split
    · rename_i hlen
      have := hroom rfl hlen
      push_cast
      omega
    · exact hlimit
  · rw [handledAttempts_length_of_ne err herr]
    exact hlimit

theorem interrupt_within (h : t.AttemptsWithin ctx) (hin : t.pc.inAdapter = true) :
    (t.interrupt e).AttemptsWithin ctx := by
  unfold Task.interrupt
  split
  · have hfollows : Task.Follows t t.handleCancel := Task.handleCancel_follows
    refine .outside (hfollows.grows.request.trans h.request) ?_ rfl
    rw [hfollows.grows.request]
    show (t.cancelledContext.attempts.length : Int) ≤ _
    rw [Task.cancelledContext_attempts, Task.markRunningAttemptCancelled_length]
    exact h.limit
  · exact handle_within _ h.request h.limit fun _ hlen => h.room hin hlen

theorem call_within (k : Nat) (hrequest : t.context.request = ctx.request)
    (hlimit : (t.context.attempts.length : Int) ≤ t.context.request.budget.attempts)
    (hcount : t.attemptCount ≤ t.context.attempts.length) : (t.call e k).AttemptsWithin ctx := by
  unfold Task.call
  split
  · exact handle_within _ hrequest hlimit fun heq => by cases heq
  · rename_i hlt
    refine ⟨hrequest, hlimit, fun _ _ => ⟨not_le.mp hlt, hcount, le_refl _, Nat.le_succ _⟩, ?_⟩
    intro k hk
    cases hk

theorem admitted_within (h : t.AttemptsWithin ctx) (hcount : t.attemptCount = t.context.attempts.length)
    (htime : enforceApproval e plan t.node = none → plan.request.budget.deadlineSeconds - elapsed ≤ 0 →
      (t.context.attempts.length : Int) < t.context.request.budget.attempts) :
    (t.admitted e plan elapsed).AttemptsWithin ctx := by
  unfold Task.admitted
  split
  · rename_i err herr
    refine handle_within _ h.request h.limit fun heq => ?_
    -- approval raises a policy error, never a timeout
    subst heq
    unfold enforceApproval at herr
    simp only at herr
    split at herr
    · cases herr
    · split at herr <;> cases herr
  · rename_i happroved
    split
    · rename_i hlate
      refine handle_within _ h.request ?_ fun heq => by cases heq
      have hroom := htime happroved hlate
      show ((ensureDeadlineAttemptFailed e t.context t.node t.attemptCount).length : Int) ≤ _
      rw [ensureDeadline_length, if_pos hcount.symm]
      push_cast
      omega
    · exact call_within 0 h.request h.limit hcount.le

theorem flushFrom_inAdapter (i : Nat) (exit : Exit) : (t.flushFrom i exit).pc.inAdapter = false := by
  unfold Task.flushFrom
  split
  · rfl
  · cases exit <;> rfl

theorem flushFrom_within (i : Nat) (exit : Exit) (hrequest : t.context.request = ctx.request)
    (hlimit : (t.context.attempts.length : Int) ≤ t.context.request.budget.attempts) :
    (t.flushFrom i exit).AttemptsWithin ctx := by
  have hreq : (t.flushFrom i exit).context.request = t.context.request :=
    (Task.flushFrom_follows i exit).grows.request
  refine .outside (hreq.trans hrequest) ?_ (flushFrom_inAdapter i exit)
  rw [hreq, flushFrom_attempts]
  exact hlimit

theorem op_within (k : Nat) (o : ContextOp) (hpc : t.pc = .calling k) (h : t.AttemptsWithin ctx)
    (honce : t.opensOnce (.op o)) : Task.AttemptsWithin ctx {t with context := o.apply t.context} := by
  have hcall := h.inCall k hpc
  have hreq : (o.apply t.context).request = t.context.request := (o.apply_grows _).request
  have hlen : (o.apply t.context).attempts.length = t.context.attempts.length ∨
      ((o.apply t.context).attempts.length = t.context.attempts.length + 1 ∧
        t.context.attempts.length ≤ t.callStart) := by
    cases o <;> simp_all [ContextOp.apply, ExecutionContext.recordRuntimeEvent, Task.opensOnce,
      TaskEvent.opensAttempt]
  refine ⟨hreq.trans h.request, ?_, ?_, ?_⟩
  · show ((o.apply t.context).attempts.length : Int) ≤ (o.apply t.context).request.budget.attempts
    rw [hreq]
    omega
  · intro k' hk'
    show (t.callStart : Int) < (o.apply t.context).request.budget.attempts ∧ t.attemptCount ≤ t.callStart ∧
      t.callStart ≤ (o.apply t.context).attempts.length ∧ (o.apply t.context).attempts.length ≤ t.callStart + 1
    rw [hreq]
    omega
  · intro k' hk'
    rw [show t.pc = Pc.backoff k' from hk'] at hpc
    cases hpc

/-- The error leaves the adapter: a pause, another call or a handler follows. -/
theorem caught_within (k : Nat) (err : AdapterError) (hpc : t.pc = .calling k) (h : t.AttemptsWithin ctx) :
    (t.caught e k err).AttemptsWithin ctx := by
  have hcall := h.inCall k hpc
  have hin : t.pc.inAdapter = true := by simp [hpc, Pc.inAdapter]
  unfold Task.caught
  split
  · split
    · have hcount : t.attemptCount ≤ t.context.attempts.length := by omega
      refine ⟨h.request, h.limit, ?_, fun _ _ => ⟨hcount, fun hlen => h.room hin hlen⟩⟩
      intro k' hk'
      cases hk'
    · exact call_within _ h.request h.limit (by omega)
  · exact handle_within _ h.request h.limit fun _ hlen => h.room hin hlen

/-- One step keeps the attempts within the budget. -/
theorem move_within (hmove : Task.Move e plan elapsed id t ev t') (h : t.AttemptsWithin ctx)
    (hrule : (WithinAttempts e plan).task elapsed t ev) : t'.AttemptsWithin ctx := by
  obtain ⟨honce, htime⟩ := hrule
  have hout : ∀ {t'' : Task}, t''.context = t.context → t''.pc.inAdapter = false → t''.AttemptsWithin ctx := by
    intro t'' hctx hpc
    exact .outside (hctx ▸ h.request) (hctx ▸ h.limit) hpc
  cases hmove with
  | op k o hpc => exact op_within k o hpc h honce
  | start hpc =>
    unfold Task.start
    split
    · exact hout rfl rfl
    · exact .outside h.request h.limit rfl
  | enter hpc =>
    have hopened : (t.opened id).AttemptsWithin ctx := hout rfl (by simp [Task.opened, hpc, Pc.inAdapter])
    refine admitted_within hopened rfl ?_
    exact htime (by simp [Task.isEntering, hpc])
  | retry k hpc => exact call_within _ h.request h.limit (h.inBackoff k hpc).1
  | handled w r hpc => exact flushFrom_within _ _ h.request h.limit
  | cancelHandled hpc => exact flushFrom_within _ _ h.request h.limit
  | flushed i exit hpc => exact flushFrom_within _ _ h.request h.limit
  | finished hpc => exact hout rfl rfl
  | returns k hpc => exact flushFrom_within (t := {t with fate := .returned}) _ _ h.request h.limit
  | raises k err hpc => exact caught_within k err hpc h
  | expire k hpc => exact ⟨h.request, h.limit, h.inCall, h.inBackoff⟩
  | expireBackoff k hpc => exact interrupt_within h (by simp [hpc, Pc.inAdapter])
  | interrupted k hpc => exact interrupt_within h (by simp [hpc, Pc.inAdapter])
  | dropped w hpc => exact hout rfl rfl
  | thrown w k hpc => exact ⟨h.request, h.limit, h.inCall, h.inBackoff⟩
  | woken w k hpc =>
    have hthrown : Task.AttemptsWithin ctx {t with cancelRequested := false, cancelDelivered := true} :=
      ⟨h.request, h.limit, h.inCall, h.inBackoff⟩
    exact interrupt_within (e := e) hthrown (by simp [hpc, Pc.inAdapter])
  | handlerCut w ev r hpc => exact flushFrom_within (t := {t with cancelRequested := false}) _ _ h.request h.limit
  | flushCut w i exit hpc => exact hout rfl rfl
  | finishCut w hpc => exact hout rfl rfl

end

/-! ### Runs -/

/-- Branches within their own attempt budgets merge to a run within its own. -/
theorem mergeAll_within {plan : FetchPlan} {l : Locals} {first : PlanNode} {b : Batch} (hof : b.Of plan l first)
    (hI : ∀ (i : Nat) (br : Branch), b.branches[i]? = some br →
      br.task.AttemptsWithin (branchContext l.context b.branches.length i))
    (hlimit : (l.context.attempts.length : Int) ≤ l.context.request.budget.attempts) :
    ((mergeAll b.baseline l.context (b.branches.map (·.task.context))).attempts.length : Int) ≤
      l.context.request.budget.attempts := by
  have hpos : 0 < b.branches.length := by
    have := hof.many
    omega
  have hkeep : List.Forall₂ (fun branch (budget : ResourceBudget) =>
      used l.context .attempts + usedBy (added (.capture l.context) branch) .attempts ≤ budget.int .attempts)
      (b.branches.map (·.task.context))
      ((List.range b.branches.length).map (branchBudget l.context b.branches.length)) := by
    refine List.forall₂_iff_get.mpr ⟨by simp, fun i h₁ h₂ => ?_⟩
    simp only [List.get_eq_getElem, List.getElem_map, List.getElem_range]
    have hi : i < b.branches.length := by simpa using h₁
    have hw := hI i _ (List.getElem?_eq_getElem hi)
    have hceiling : (branchBudget l.context b.branches.length i).int .attempts =
        used l.context .attempts + share (left l.context .attempts) b.branches.length i :=
      branchBudget_int _ _ _ (by simp [partitionedFields])
    have hshare := share_nonneg (left_nonneg l.context .attempts) b.branches.length i
    have hmax := hw.limit
    rw [hw.request] at hmax
    change _ ≤ (branchBudget l.context b.branches.length i).int .attempts at hmax
    simp only [used, usedBy, added, ContextLengths.capture, List.length_drop] at hceiling ⊢
    omega
  have h := used_mergeAll_le l.context hpos (by simp [partitionedFields]) _ hkeep
  rw [← hof.baseline] at h
  simp only [used, usedBy, left, ResourceBudget.int] at h
  omega

theorem withinAttempts_carries (e : Engine) (plan : FetchPlan) :
    Carries e plan (WithinAttempts e plan)
      (fun l => l.context.request = plan.executionRequest ∧
        (l.context.attempts.length : Int) ≤ l.context.request.budget.attempts)
      Task.AttemptsWithin where
  single l node hL _ := .outside rfl hL.2 rfl
  branch l first i node hL _ hmany _ := by
    refine .outside rfl ?_ rfl
    have hshare := share_nonneg (left_nonneg l.context .attempts) (l.batchAt plan first).length i
    show (l.context.attempts.length : Int) ≤ branchCeiling _ _ _ .attempts
    simp only [branchCeiling, used, usedBy, left] at hshare ⊢
    omega
  move ctx t ev t' elapsed id hI hrule hmove := move_within hmove hI hrule
  cancel ctx t reason hI _ _ := ⟨hI.request, hI.limit, hI.inCall, hI.inBackoff⟩
  skipDependencies l node hL _ _ _ := hL
  skipFallback l node hL _ _ _ _ _ _ := hL
  resume l t r hL _ hI _ := ⟨hI.request.trans hL.1, hI.limit⟩
  join l first b hL hof hI _ := by
    have hrequest : (mergeAll b.baseline l.context (b.branches.map (·.task.context))).request = l.context.request :=
      mergeAll_request _ _ _
    refine ⟨hrequest.trans hL.1, ?_⟩
    show ((mergeAll b.baseline l.context _).attempts.length : Int) ≤ (mergeAll b.baseline l.context _).request.budget.attempts
    rw [hrequest]
    exact mergeAll_within hof hI hL.2

/-- **The attempt budget holds**: when each adapter call appends at most one attempt
and no node starts past the deadline with the attempts used up, the result has at most
`budget.attempts` attempts. -/
theorem attempts_within_budget (e : Engine) (plan : FetchPlan) (actions : List Action) (r : FetchResult)
    (hobeys : (machine e plan).Obeys (WithinAttempts e plan).rule (.initial plan) actions)
    (hreturns : execute e plan actions = some r) :
    (r.attempts.length : Int) ≤ plan.request.budget.attempts := by
  obtain ⟨s, hrun, hreturned⟩ := execute_eq_some hreturns
  have hbudget : 0 ≤ plan.executionRequest.budget.attempts := by
    rw [plan.budget_eq]
    exact plan.validBudget.attempts_nonneg
  have hinv := (withinAttempts_carries e plan).run ⟨rfl, by simpa [State.initial] using hbudget⟩ hobeys hrun
  have hphase := hinv.phase
  rw [hreturned] at hphase
  obtain ⟨-, elapsed, ledger, -, rfl, -⟩ := hphase
  obtain ⟨hrequest, hlimit⟩ := hinv.locals
  rw [hrequest, plan.budget_eq] at hlimit
  rw [result_attempts]
  exact hlimit

/-- A page and a reader of it, with one attempt for both. -/
def pagePlan : FetchPlan where
  request := {target := "https://example.org/", budget := {attempts := 1}}
  nodes := [{id := "http", capabilityId := "http_get", adapter := "http"},
    {id := "reader-0-clean-text", capabilityId := "clean_text", adapter := "reader", dependencies := ["http"]}]

/-- The page is fetched; `wait` seconds pass while `attempt.finished` is written; the
reader starts. -/
def pageThenReader (wait : ℚ) : List Action :=
  [.advance, .node .resume, .node .resume,
    .node (.op (.addAttempt {capabilityId := "http_get", status := .succeeded, finished := true})),
    .node .returns, .tick wait, .node .resume, .advance,
    .advance, .node .resume, .node .resume, .node .resume, .advance, .advance]

theorem attempts_within_budget_page :
    ∃ r, execute sampleEngine pagePlan (pageThenReader 1) = some r ∧
      (r.attempts.length : Int) ≤ pagePlan.request.budget.attempts := by
  have hsome : (execute sampleEngine pagePlan (pageThenReader 1)).isSome = true := by decide +kernel
  obtain ⟨r, hr⟩ := Option.isSome_iff_exists.mp hsome
  exact ⟨r, hr, attempts_within_budget _ _ _ r (by decide +kernel) hr⟩

/-- Each adapter call appends at most one attempt, and nothing more is asked. -/
def OneAttemptPerCall : Discipline where
  task _ t ev := t.opensOnce ev
  cancel _ := True

instance (q : ℚ) (t : Task) (ev : TaskEvent) : Decidable (OneAttemptPerCall.task q t ev) :=
  inferInstanceAs (Decidable (_ = true → _ ≤ _))

instance (t : Task) : Decidable (OneAttemptPerCall.cancel t) := inferInstanceAs (Decidable True)

/-- The deadline passes between the two nodes: the attempt recorded for the reader is
one more than the budget has. -/
theorem late_node_exceeds_attempts :
    ∃ r, execute sampleEngine pagePlan (pageThenReader 30) = some r ∧
      (machine sampleEngine pagePlan).Obeys OneAttemptPerCall.rule (.initial pagePlan) (pageThenReader 30) ∧
      pagePlan.request.budget.attempts < (r.attempts.length : Int) := by
  have hlength : (execute sampleEngine pagePlan (pageThenReader 30)).map (·.attempts.length) = some 2 := by
    decide +kernel
  obtain ⟨r, hr, hl⟩ := Option.map_eq_some_iff.mp hlength
  refine ⟨r, hr, by decide +kernel, ?_⟩
  rw [hl]
  decide

end Fetech.Executor
