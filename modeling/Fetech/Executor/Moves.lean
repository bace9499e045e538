import Fetech.Executor

/-! What one step of a task can do, said once.

`Move` lists the steps of `Task.step` with the place each starts from, so that an
invariant is a case analysis on moves and never unfolds the step function. -/
namespace Fetech.Executor.Task

variable {e : Engine} {plan : FetchPlan} {elapsed : ℚ} {id : Nat} {t t' : Task} {ev : TaskEvent}

/-- The steps of a task. -/
inductive Move (e : Engine) (plan : FetchPlan) (elapsed : ℚ) (id : Nat) (t : Task) : TaskEvent → Task → Prop where
  | op (k : Nat) (o : ContextOp) (hpc : t.pc = .calling k) :
      Move e plan elapsed id t (.op o) {t with context := o.apply t.context}
  | start (hpc : t.pc = .created) (hc : t.cancelRequested = false) : Move e plan elapsed id t .resume (t.start e)
  | enter (hpc : t.pc = .starting) (hc : t.cancelRequested = false) :
      Move e plan elapsed id t .resume (t.enter e plan elapsed id)
  | retry (k : Nat) (hpc : t.pc = .backoff k) (hc : t.cancelRequested = false) :
      Move e plan elapsed id t .resume (t.call e (k + 1))
  | handled (w : PendingEvent) (r : NodeExecution) (hpc : t.pc = .handling w r) (hc : t.cancelRequested = false) :
      Move e plan elapsed id t .resume (t.flush (.returning r))
  | cancelHandled (hpc : t.pc = .cancelHandling) (hc : t.cancelRequested = false) :
      Move e plan elapsed id t .resume (t.flush .raising)
  | flushed (i : Nat) (exit : Exit) (hpc : t.pc = .flushing i exit) (hc : t.cancelRequested = false) :
      Move e plan elapsed id t .resume (t.flushFrom (i + 1) exit)
  | finished (hpc : t.pc = .finishing) (hc : t.cancelRequested = false) :
      Move e plan elapsed id t .resume {t with pc := .done {completed := true}}
  | returns (k : Nat) (hpc : t.pc = .calling k) (hc : t.cancelRequested = false) :
      Move e plan elapsed id t .returns ({t with fate := .returned}.flush .continuing)
  | raises (k : Nat) (err : AdapterError) (hpc : t.pc = .calling k) (hc : t.cancelRequested = false) :
      Move e plan elapsed id t (.raises err) (t.caught e k err)
  | expire (k : Nat) (hpc : t.pc = .calling k) (hc : t.cancelRequested = false) (hx : t.expired = false)
      (hd : plan.request.budget.deadlineSeconds ≤ elapsed) :
      Move e plan elapsed id t .expire {t with expired := true}
  | expireBackoff (k : Nat) (hpc : t.pc = .backoff k) (hc : t.cancelRequested = false)
      (hd : plan.request.budget.deadlineSeconds ≤ elapsed) : Move e plan elapsed id t .expire (t.interrupt e)
  | interrupted (k : Nat) (hpc : t.pc = .calling k) (hc : t.cancelRequested = false)
      (hcause : t.cancelDelivered = true ∨ t.expired = true) : Move e plan elapsed id t .interrupted (t.interrupt e)
  | dropped (w : Bool) (hpc : t.pc = .created ∨ t.pc = .starting) (hc : t.cancelRequested = true) :
      Move e plan elapsed id t (.deliver w) {t with cancelRequested := false, pc := .cancelled}
  | thrown (w : Bool) (k : Nat) (hpc : t.pc = .calling k) (hc : t.cancelRequested = true) :
      Move e plan elapsed id t (.deliver w) {t with cancelRequested := false, cancelDelivered := true}
  | woken (w : Bool) (k : Nat) (hpc : t.pc = .backoff k) (hc : t.cancelRequested = true) :
      Move e plan elapsed id t (.deliver w)
        {t with cancelRequested := false, cancelDelivered := true}.handleCancel
  | handlerCut (w : Bool) (ev : PendingEvent) (r : NodeExecution) (hpc : t.pc = .handling ev r)
      (hc : t.cancelRequested = true) :
      Move e plan elapsed id t (.deliver w) ({t with cancelRequested := false}.flush .raising)
  | flushCut (w : Bool) (i : Nat) (exit : Exit) (hpc : t.pc = .flushing i exit) (hc : t.cancelRequested = true) :
      Move e plan elapsed id t (.deliver w) {t with cancelRequested := false, pc := .cancelled}
  | finishCut (w : Bool) (hpc : t.pc = .finishing) (hc : t.cancelRequested = true) :
      Move e plan elapsed id t (.deliver w) {t with cancelRequested := false, pc := .cancelled}

theorem deliver_move (w : Bool) (hc : t.cancelRequested = true) (h : t.deliver = some t') :
    Move e plan elapsed id t (.deliver w) t' := by
  unfold deliver at h
  simp only at h
  split at h
  all_goals rename_i hpc
  · cases h
    exact .dropped w (.inl hpc) hc
  · cases h
    exact .dropped w (.inr hpc) hc
  · cases h
    exact .thrown w _ hpc hc
  · cases h
    exact .woken w _ hpc hc
  · cases h
    exact .handlerCut w _ _ hpc hc
  · cases h
    exact .flushCut w _ _ hpc hc
  · cases h
    exact .finishCut w hpc hc
  all_goals cases h

theorem step_move (h : t.step e plan elapsed id ev = some t') : Move e plan elapsed id t ev t' := by
  unfold step at h
  split at h
  · exact deliver_move _ (by assumption) h
  · cases h
    exact .op _ _ (by assumption)
  · cases h
    exact .start (by assumption) (by assumption)
  · cases h
    exact .enter (by assumption) (by assumption)
  · cases h
    exact .retry _ (by assumption) (by assumption)
  · cases h
    exact .handled _ _ (by assumption) (by assumption)
  · cases h
    exact .cancelHandled (by assumption) (by assumption)
  · cases h
    exact .flushed _ _ (by assumption) (by assumption)
  · cases h
    exact .finished (by assumption) (by assumption)
  · cases h
    exact .returns _ (by assumption) (by assumption)
  · cases h
    exact .raises _ _ (by assumption) (by assumption)
  · split at h
    · rename_i hd
      cases h
      exact .expire _ (by assumption) (by assumption) (by simpa using hd.2) hd.1
    · cases h
  · split at h
    · cases h
      exact .expireBackoff _ (by assumption) (by assumption) (by assumption)
    · cases h
  · split at h
    · rename_i hcause
      cases h
      exact .interrupted _ (by assumption) (by assumption) (by simpa using hcause)
    · cases h
  · cases h

/-! ### Steps only add -/

/-- A later state of the same task: its node is the same, its context has grown, and
it has not cancelled itself. -/
structure Follows (t t' : Task) : Prop where
  node : t'.node = t.node
  grows : t.context.Grows t'.context
  requested : t'.cancelRequested = true → t.cancelRequested = true

theorem Follows.trans {a b c : Task} (hab : Follows a b) (hbc : Follows b c) : Follows a c :=
  ⟨hbc.node.trans hab.node, hab.grows.trans hbc.grows, fun h => hab.requested (hbc.requested h)⟩

theorem closeLast_length (p : AttemptStatus → Bool) (status : AttemptStatus) (code : String)
    (attempts : List FetchAttempt) : (closeLast p status code attempts).length = attempts.length := by
  unfold closeLast
  split
  · rfl
  · rename_i a ha
    have hne : attempts ≠ [] := by
      rintro rfl
      cases ha
    have hpos : 0 < attempts.length := List.length_pos_iff.mpr hne
    split
    · simp only [List.length_append, List.length_dropLast, List.length_singleton]
      omega
    · rfl

theorem markRunningAttemptCancelled_length (code : String) (attempts : List FetchAttempt) :
    (markRunningAttemptCancelled code attempts).length = attempts.length := closeLast_length _ _ _ _

@[simp] theorem ensureOutcome_attempts (ctx : ExecutionContext) (node : PlanNode) (n : Nat)
    (status : OutcomeStatus) (details : List (String × Detail)) :
    (ensureOutcome ctx node n status details).attempts = ctx.attempts := by
  unfold ensureOutcome
  split <;> rfl

@[simp] theorem handledContext_attempts (err : AdapterError) :
    (t.handledContext e err).attempts = t.handledAttempts e err := ensureOutcome_attempts _ _ _ _ _

@[simp] theorem cancelledContext_attempts :
    t.cancelledContext.attempts = markRunningAttemptCancelled (cancellationReason t.context) t.context.attempts :=
  ensureOutcome_attempts _ _ _ _ _

theorem ensureOutcome_grows (ctx : ExecutionContext) (node : PlanNode) (n : Nat) (status : OutcomeStatus)
    (details : List (String × Detail)) : ctx.Grows (ensureOutcome ctx node n status details) := by
  unfold ensureOutcome
  split
  · exact .refl _
  · exact {ExecutionContext.Grows.refl ctx with outcomes := List.prefix_append _ _}

theorem ensureDeadlineAttemptFailed_length (ctx : ExecutionContext) (node : PlanNode) (n : Nat) :
    ctx.attempts.length ≤ (ensureDeadlineAttemptFailed e ctx node n).length := by
  unfold ensureDeadlineAttemptFailed
  split
  · simp
  · rw [closeLast_length]

theorem handledAttempts_length (err : AdapterError) :
    t.context.attempts.length ≤ (t.handledAttempts e err).length := by
  unfold handledAttempts
  split
  · exact ensureDeadlineAttemptFailed_length _ _ _
  · exact (closeLast_length _ _ _ _).ge

theorem handledContext_grows (err : AdapterError) : t.context.Grows (t.handledContext e err) :=
  .trans (b := ExecutionContext.diagnose {t.context with
      attempts := t.handledAttempts e err, policyDecisions := t.context.policyDecisions ++ err.decisions} _ _)
    {ExecutionContext.Grows.refl t.context with
      attempts := handledAttempts_length err
      decisions := List.prefix_append _ _
      diagnostics := List.prefix_append _ _}
    (ensureOutcome_grows _ _ _ _ _)

theorem handle_follows (err : AdapterError) : Follows t (t.handle e err) := ⟨rfl, handledContext_grows err, fun h => h⟩

theorem cancelledContext_grows : t.context.Grows t.cancelledContext :=
  .trans (b := {t.context with
      sensitiveState := t.context.sensitiveState.erase cancellationKey
      attempts := markRunningAttemptCancelled (cancellationReason t.context) t.context.attempts})
    {ExecutionContext.Grows.refl t.context with attempts := (markRunningAttemptCancelled_length _ _).ge}
    (ensureOutcome_grows _ _ _ _ _)

theorem handleCancel_follows : Follows t t.handleCancel := ⟨rfl, cancelledContext_grows, fun h => h⟩

theorem interrupt_follows : Follows t (t.interrupt e) := by
  unfold interrupt
  split
  · exact handleCancel_follows
  · exact handle_follows _

theorem call_follows (k : Nat) : Follows t (t.call e k) := by
  unfold call
  split
  · exact handle_follows _
  · exact ⟨rfl, .refl _, fun h => h⟩

theorem caught_follows (k : Nat) (err : AdapterError) : Follows t (t.caught e k err) := by
  unfold caught
  split
  · split
    · exact ⟨rfl, .refl _, fun h => h⟩
    · exact call_follows _
  · exact handle_follows _

theorem leave_follows (exit : Exit) : Follows t (t.leave exit) := by
  cases exit with
  | returning r => exact ⟨rfl, .refl _, fun h => h⟩
  | raising => exact ⟨rfl, .refl _, fun h => h⟩
  | continuing => exact ⟨rfl, ensureOutcome_grows _ _ _ _ _, fun h => h⟩

theorem flushFrom_follows (i : Nat) (exit : Exit) : Follows t (t.flushFrom i exit) := by
  unfold flushFrom
  split
  · exact ⟨rfl, .refl _, fun h => h⟩
  · exact leave_follows exit

theorem late_follows : Follows t (t.late e) :=
  .trans (b := {t with context.attempts := ensureDeadlineAttemptFailed e t.context t.node t.attemptCount})
    ⟨rfl, {ExecutionContext.Grows.refl t.context with attempts := ensureDeadlineAttemptFailed_length _ _ _}, fun h => h⟩
    (handle_follows _)

theorem admitted_follows : Follows t (t.admitted e plan elapsed) := by
  unfold admitted
  split
  · exact handle_follows _
  · split
    · exact late_follows
    · exact call_follows _

theorem enter_follows : Follows t (t.enter e plan elapsed id) :=
  .trans (b := t.opened id) ⟨rfl, .refl _, fun h => h⟩ admitted_follows

theorem start_follows : Follows t (t.start e) := by
  unfold start
  split
  · exact ⟨rfl, .refl _, fun h => h⟩
  · refine ⟨rfl, ?_, fun h => h⟩
    exact {ExecutionContext.Grows.refl t.context with
      outcomes := List.prefix_append _ _, diagnostics := List.prefix_append _ _}

theorem Move.follows (h : Move e plan elapsed id t ev t') : Follows t t' := by
  cases h with
  | op k o hpc => exact ⟨rfl, o.apply_grows _, fun h => h⟩
  | start => exact start_follows
  | enter => exact enter_follows
  | retry => exact call_follows _
  | handled => exact flushFrom_follows _ _
  | cancelHandled => exact flushFrom_follows _ _
  | flushed => exact flushFrom_follows _ _
  | returns => exact .trans (b := {t with fate := .returned}) ⟨rfl, .refl _, fun h => h⟩ (flushFrom_follows _ _)
  | raises => exact caught_follows _ _
  | expireBackoff => exact interrupt_follows
  | interrupted => exact interrupt_follows
  | woken =>
    exact .trans (b := {t with cancelRequested := false, cancelDelivered := true})
      ⟨rfl, .refl _, fun h => by cases h⟩ handleCancel_follows
  | handlerCut =>
    exact .trans (b := {t with cancelRequested := false}) ⟨rfl, .refl _, fun h => by cases h⟩ (flushFrom_follows _ _)
  | finished => exact ⟨rfl, .refl _, fun h => h⟩
  | expire => exact ⟨rfl, .refl _, fun h => h⟩
  | dropped => exact ⟨rfl, .refl _, fun h => by cases h⟩
  | thrown => exact ⟨rfl, .refl _, fun h => by cases h⟩
  | flushCut => exact ⟨rfl, .refl _, fun h => by cases h⟩
  | finishCut => exact ⟨rfl, .refl _, fun h => by cases h⟩

end Fetech.Executor.Task
