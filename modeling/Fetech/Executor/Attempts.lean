import Fetech.Executor.Invariant

/-! What becomes of attempts.

An adapter opens an attempt and closes it again; where it raises or is interrupted
instead, the executor's handler closes the last attempt, and only the last. So a run
ends without an open attempt if every adapter, when its work ends, leaves at most its
last attempt open (`ClosesAttempts`). -/
namespace Fetech.Executor

/-- The adapter or the pause before its next call is under way. -/
def Pc.inAdapter : Pc → Bool
  | .calling _ => true
  | .backoff _ => true
  | _ => false

def AllClosed (attempts : List FetchAttempt) : Prop := ∀ a ∈ attempts, a.status.closed = true

instance (attempts : List FetchAttempt) : Decidable (AllClosed attempts) :=
  inferInstanceAs (Decidable (∀ a ∈ attempts, a.status.closed = true))

theorem AllClosed.append {a b : List FetchAttempt} (ha : AllClosed a) (hb : AllClosed b) : AllClosed (a ++ b) := by
  intro x hx
  rcases List.mem_append.mp hx with h | h
  · exact ha x h
  · exact hb x h

theorem AllClosed.dropLast {attempts : List FetchAttempt} (h : AllClosed attempts) : AllClosed attempts.dropLast :=
  fun a ha => h a (List.dropLast_subset _ ha)

/-- Closing the last attempt closes all if the others were closed and the last is
closed or of a status that gets closed. -/
theorem closeLast_closed {p : AttemptStatus → Bool} {status : AttemptStatus} {attempts : List FetchAttempt}
    (hs : status.closed = true) (code : String) (hinit : AllClosed attempts.dropLast)
    (hlast : ∀ a ∈ attempts.getLast?, p a.status = false → a.status.closed = true) :
    AllClosed (closeLast p status code attempts) := by
  unfold closeLast
  split
  · rename_i hnone
    rw [List.getLast?_eq_none_iff] at hnone
    subst hnone
    exact hinit
  · rename_i a ha
    have hsplit : attempts.dropLast ++ [a] = attempts := List.dropLast_append_getLast? a ha
    split
    · exact hinit.append (by simpa [AllClosed] using hs)
    · rename_i hp
      rw [← hsplit]
      exact hinit.append (by simpa [AllClosed] using hlast a ha (by simpa using hp))

/-! ### Where handlers look -/

/-- The event ends the adapter's work: nothing is left to retry. -/
def Task.leavesAdapter (e : Engine) (t : Task) (ev : TaskEvent) : Bool :=
  let outOfAttempts := decide (t.context.request.budget.attempts ≤ t.context.attempts.length)
  match t.pc, ev with
  | .calling _, .returns => true
  | .calling k, .raises err =>
    !retries e t.node.retry k err || (decide (t.node.retry.backoffSeconds ≤ 0) && outOfAttempts)
  | .calling _, .interrupted => true
  | .backoff _, .resume => outOfAttempts
  | .backoff _, .expire => true
  | .backoff _, .deliver _ => true
  | _, _ => false

/-- It is the deadline, or the adapter's own `TimeoutError`, that ends it. -/
def Task.byDeadline (t : Task) : TaskEvent → Bool
  | .raises .timeout => true
  | .interrupted => !t.cancelDelivered
  | .expire => !t.cancelDelivered
  | _ => false

/-- At most the last attempt is open, and in a state the handler closes. -/
def Task.Closable (t : Task) (ev : TaskEvent) : Prop :=
  let attempts := t.context.attempts
  match ev with
  | .returns => AllClosed attempts
  | ev =>
    AllClosed attempts.dropLast ∧
      if t.byDeadline ev then attempts.length = t.attemptCount → AllClosed attempts
      else ∀ a ∈ attempts.getLast?, a.status ≠ .planned

instance (t : Task) : (ev : TaskEvent) → Decidable (t.Closable ev)
  | .returns => inferInstanceAs (Decidable (AllClosed _))
  | .resume => inferInstanceAs (Decidable (_ ∧ _))
  | .op _ => inferInstanceAs (Decidable (_ ∧ _))
  | .raises _ => inferInstanceAs (Decidable (_ ∧ _))
  | .expire => inferInstanceAs (Decidable (_ ∧ _))
  | .interrupted => inferInstanceAs (Decidable (_ ∧ _))
  | .deliver _ => inferInstanceAs (Decidable (_ ∧ _))

/-- Adapters that leave at most their last attempt open when their work ends. -/
def ClosesAttempts (e : Engine) : Discipline where
  task _ t ev := t.leavesAdapter e ev = true → t.Closable ev
  cancel _ := True

instance (e : Engine) (q : ℚ) (t : Task) (ev : TaskEvent) : Decidable ((ClosesAttempts e).task q t ev) :=
  inferInstanceAs (Decidable (_ → _))

instance (e : Engine) (t : Task) : Decidable ((ClosesAttempts e).cancel t) := inferInstanceAs (Decidable True)

theorem markFailed_closed {attempts : List FetchAttempt} (code : String) (hinit : AllClosed attempts.dropLast)
    (hlast : ∀ a ∈ attempts.getLast?, a.status ≠ .planned) : AllClosed (markRunningAttemptFailed code attempts) := by
  refine closeLast_closed rfl code hinit fun a ha hrunning => ?_
  have hplanned := hlast a ha
  cases hstatus : a.status <;> simp_all [AttemptStatus.closed]

theorem markCancelled_closed {attempts : List FetchAttempt} (code : String) (hinit : AllClosed attempts.dropLast)
    (hlast : ∀ a ∈ attempts.getLast?, a.status ≠ .planned) :
    AllClosed (markRunningAttemptCancelled code attempts) := by
  refine closeLast_closed rfl code hinit fun a ha hrunning => ?_
  have hplanned := hlast a ha
  cases hstatus : a.status <;> simp_all [AttemptStatus.closed]

theorem ensureDeadline_closed {e : Engine} {ctx : ExecutionContext} {node : PlanNode} {n : Nat}
    (hinit : AllClosed ctx.attempts.dropLast) (hall : ctx.attempts.length = n → AllClosed ctx.attempts) :
    AllClosed (ensureDeadlineAttemptFailed e ctx node n) := by
  unfold ensureDeadlineAttemptFailed
  split
  · rename_i hn
    exact (hall hn).append (by simp [AllClosed, AttemptStatus.closed])
  · refine closeLast_closed rfl _ hinit fun a _ hopen => ?_
    cases hstatus : a.status <;> simp_all [AttemptStatus.closed]

theorem not_planned_of_closed {attempts : List FetchAttempt} (h : AllClosed attempts) :
    ∀ a ∈ attempts.getLast?, a.status ≠ .planned := by
  intro a ha hplanned
  have hclosed := h a (List.mem_of_getLast? ha)
  rw [hplanned] at hclosed
  cases hclosed

/-! ### Steps of a task -/

/-- Outside the adapter every attempt is closed. -/
def Task.ClosedOutside (t : Task) : Prop := t.pc.inAdapter = true ∨ AllClosed t.context.attempts

section
variable {e : Engine} {plan : FetchPlan} {elapsed : ℚ} {id : Nat} {t t' : Task} {ev : TaskEvent}

theorem handledAttempts_closed (err : AdapterError) (hinit : AllClosed t.context.attempts.dropLast)
    (hlast : err ≠ .timeout → ∀ a ∈ t.context.attempts.getLast?, a.status ≠ .planned)
    (hall : err = .timeout → t.context.attempts.length = t.attemptCount → AllClosed t.context.attempts) :
    AllClosed (t.handledAttempts e err) := by
  unfold Task.handledAttempts
  split
  · exact ensureDeadline_closed hinit (hall rfl)
  · rename_i hne
    exact markFailed_closed _ hinit (hlast fun heq => hne heq)

theorem handle_closed (err : AdapterError) (h : AllClosed t.context.attempts) :
    AllClosed (t.handle e err).context.attempts := by
  show AllClosed (t.handledContext e err).attempts
  rw [Task.handledContext_attempts]
  exact handledAttempts_closed err h.dropLast (fun _ => not_planned_of_closed h) (fun _ _ => h)

theorem handleCancel_closed (hinit : AllClosed t.context.attempts.dropLast)
    (hlast : ∀ a ∈ t.context.attempts.getLast?, a.status ≠ .planned) :
    AllClosed t.handleCancel.context.attempts := by
  show AllClosed t.cancelledContext.attempts
  rw [Task.cancelledContext_attempts]
  exact markCancelled_closed _ hinit hlast

theorem call_closed (k : Nat) (h : AllClosed t.context.attempts) : (t.call e k).ClosedOutside := by
  unfold Task.call
  split
  · exact .inr (handle_closed _ h)
  · exact .inl rfl

theorem admitted_closed (h : AllClosed t.context.attempts) : (t.admitted e plan elapsed).ClosedOutside := by
  unfold Task.admitted
  split
  · exact .inr (handle_closed _ h)
  · split
    · refine .inr (handle_closed _ ?_)
      exact ensureDeadline_closed h.dropLast fun _ => h
    · exact call_closed 0 h

@[simp] theorem leave_attempts (exit : Exit) : (t.leave exit).context.attempts = t.context.attempts := by
  cases exit with
  | returning r => rfl
  | raising => rfl
  | continuing => exact Task.ensureOutcome_attempts _ _ _ _ _

@[simp] theorem flushFrom_attempts (i : Nat) (exit : Exit) :
    (t.flushFrom i exit).context.attempts = t.context.attempts := by
  unfold Task.flushFrom
  split
  · rfl
  · exact leave_attempts exit

@[simp] theorem flush_attempts (exit : Exit) : (t.flush exit).context.attempts = t.context.attempts :=
  flushFrom_attempts _ _

theorem interrupt_closed (hinit : AllClosed t.context.attempts.dropLast)
    (h : if t.cancelDelivered then ∀ a ∈ t.context.attempts.getLast?, a.status ≠ .planned
      else t.context.attempts.length = t.attemptCount → AllClosed t.context.attempts) :
    AllClosed (t.interrupt e).context.attempts := by
  unfold Task.interrupt
  split
  · rename_i hc
    rw [if_pos hc] at h
    exact handleCancel_closed hinit h
  · rename_i hc
    rw [if_neg hc] at h
    show AllClosed (t.handledContext e .timeout).attempts
    rw [Task.handledContext_attempts]
    exact handledAttempts_closed _ hinit (fun hne => absurd rfl hne) fun _ => h

theorem closable_raises {err : AdapterError} (hne : err ≠ .timeout) (h : t.Closable (.raises err)) :
    AllClosed t.context.attempts.dropLast ∧ ∀ a ∈ t.context.attempts.getLast?, a.status ≠ .planned := by
  have hdeadline : t.byDeadline (.raises err) = false := by
    cases err <;> first | rfl | exact absurd rfl hne
  simpa [Task.Closable, hdeadline] using h

/-- One step keeps every attempt outside the adapter closed, if the adapter leaves
its attempts closable. -/
theorem move_closed (hmove : Task.Move e plan elapsed id t ev t') (h : t.ClosedOutside)
    (hrule : (ClosesAttempts e).task elapsed t ev) : t'.ClosedOutside := by
  -- where the task is not in its adapter, all is closed
  have hclosed : t.pc.inAdapter = false → AllClosed t.context.attempts := by
    intro hpc
    rcases h with h | h
    · rw [hpc] at h
      cases h
    · exact h
  have hleave : t.leavesAdapter e ev = true → t.Closable ev := hrule
  cases hmove with
  | op k o hpc => exact .inl (by simp [hpc, Pc.inAdapter])
  | start hpc =>
    refine .inr ?_
    have hall := hclosed (by simp [hpc, Pc.inAdapter])
    unfold Task.start
    split
    · exact hall
    · exact hall
  | enter hpc => exact admitted_closed (t := t.opened id) (hclosed (by simp [hpc, Pc.inAdapter]))
  | retry k hpc =>
    unfold Task.call
    split
    · rename_i hout
      have hcl := hleave (by simp [Task.leavesAdapter, hpc, hout])
      simp only [Task.Closable, Task.byDeadline] at hcl
      refine .inr ?_
      show AllClosed (t.handledContext e _).attempts
      rw [Task.handledContext_attempts]
      exact handledAttempts_closed _ hcl.1 (fun _ => by simpa using hcl.2) (fun heq => by cases heq)
    · exact .inl rfl
  | handled w r hpc => exact .inr (by simpa using hclosed (by simp [hpc, Pc.inAdapter]))
  | cancelHandled hpc => exact .inr (by simpa using hclosed (by simp [hpc, Pc.inAdapter]))
  | flushed i exit hpc => exact .inr (by simpa using hclosed (by simp [hpc, Pc.inAdapter]))
  | finished hpc => exact .inr (hclosed (by simp [hpc, Pc.inAdapter]))
  | returns k hpc =>
    have hcl : AllClosed t.context.attempts := hleave (by simp [Task.leavesAdapter, hpc])
    exact .inr (by simpa using hcl)
  | raises k err hpc =>
    unfold Task.caught
    split
    · rename_i hretry
      split
      · exact .inl rfl
      · rename_i hback
        unfold Task.call
        split
        · rename_i hout
          have hcl := hleave (by simp [Task.leavesAdapter, hpc, hout, not_lt.mp hback])
          have hne : err ≠ .timeout := by
            rintro rfl
            cases hretry
          obtain ⟨hinit, hlast⟩ := closable_raises hne hcl
          refine .inr ?_
          show AllClosed (t.handledContext e _).attempts
          rw [Task.handledContext_attempts]
          exact handledAttempts_closed _ hinit (fun _ => hlast) (fun heq => by cases heq)
        · exact .inl rfl
    · rename_i hretry
      have hcl := hleave (by simp [Task.leavesAdapter, hpc, hretry])
      refine .inr ?_
      show AllClosed (t.handledContext e _).attempts
      rw [Task.handledContext_attempts]
      refine handledAttempts_closed _ ?_ (fun hne => (closable_raises hne hcl).2) ?_
      · exact hcl.1
      · rintro rfl
        exact hcl.2
  | expire k hpc => exact .inl (by simp [hpc, Pc.inAdapter])
  | expireBackoff k hpc =>
    have hcl := hleave (by simp [Task.leavesAdapter, hpc])
    simp only [Task.Closable, Task.byDeadline] at hcl
    refine .inr (interrupt_closed hcl.1 ?_)
    cases hcd : t.cancelDelivered <;> simpa [hcd] using hcl.2
  | interrupted k hpc =>
    have hcl := hleave (by simp [Task.leavesAdapter, hpc])
    simp only [Task.Closable, Task.byDeadline] at hcl
    refine .inr (interrupt_closed hcl.1 ?_)
    cases hcd : t.cancelDelivered <;> simpa [hcd] using hcl.2
  | dropped w hpc =>
    refine .inr (hclosed ?_)
    rcases hpc with hpc | hpc <;> simp [hpc, Pc.inAdapter]
  | thrown w k hpc => exact .inl (by simp [hpc, Pc.inAdapter])
  | woken w k hpc =>
    have hcl := hleave (by simp [Task.leavesAdapter, hpc])
    simp only [Task.Closable, Task.byDeadline] at hcl
    exact .inr (handleCancel_closed hcl.1 (by simpa using hcl.2))
  | handlerCut w ev r hpc => exact .inr (by simpa using hclosed (by simp [hpc, Pc.inAdapter]))
  | flushCut w i exit hpc => exact .inr (hclosed (by simp [hpc, Pc.inAdapter]))
  | finishCut w hpc => exact .inr (hclosed (by simp [hpc, Pc.inAdapter]))

end

/-! ### Runs -/

theorem mergeAll_closed {baseline : ContextLengths} {ctx : ExecutionContext} {branches : List ExecutionContext}
    (hctx : AllClosed ctx.attempts) (h : ∀ branch ∈ branches, AllClosed branch.attempts) :
    AllClosed (mergeAll baseline ctx branches).attempts := by
  rw [mergeAll_attempts]
  refine hctx.append fun a ha => ?_
  obtain ⟨tail, htail, hmem⟩ := List.mem_flatten.mp ha
  obtain ⟨branch, hbranch, rfl⟩ := List.mem_map.mp htail
  exact h branch hbranch a (List.mem_of_mem_drop hmem)

/-- A branch of a finished batch has ended. -/
theorem Batch.Of.ended {plan : FetchPlan} {l : Locals} {first : PlanNode} {b : Batch} (hof : b.Of plan l first)
    (hfin : b.finished = true) {br : Branch} (hbr : br ∈ b.branches) :
    (∃ r, br.task.pc = .done r) ∨ br.task.pc = .cancelled := by
  have h := List.all_eq_true.mp hfin br hbr
  rw [Bool.or_eq_true, Bool.and_eq_true] at h
  have hdone : br.task.result?.isSome → ∃ r, br.task.pc = .done r := by
    intro hsome
    unfold Task.result? at hsome
    split at hsome
    · exact ⟨_, by assumption⟩
    · cases hsome
  rcases h with h | ⟨-, h⟩
  · rcases hof.results br hbr with hnone | ⟨-, hsome⟩
    · rw [hnone] at h
      cases h
    · exact .inl (hdone hsome)
  · unfold Task.ended at h
    split at h
    · exact .inl ⟨_, by assumption⟩
    · exact .inr (by assumption)
    · cases h

theorem closesAttempts_carries (e : Engine) (plan : FetchPlan) :
    Carries e plan (ClosesAttempts e) (fun l => AllClosed l.context.attempts) (fun _ t => t.ClosedOutside) where
  single l node hL _ := .inr hL
  branch l first i node hL _ _ _ := .inr hL
  move ctx t ev t' elapsed id hI hrule hmove := move_closed hmove hI hrule
  cancel ctx t reason hI _ _ := hI
  skipDependencies l node hL _ _ _ := hL
  skipFallback l node hL _ _ _ _ _ _ := hL
  resume l t r hL _ hI hpc := by
    rcases hI with hin | hclosed
    · rw [hpc] at hin
      cases hin
    · exact hclosed
  join l first b hL hof hI hfin := by
    refine mergeAll_closed hL fun ctx hctx => ?_
    obtain ⟨br, hbr, rfl⟩ := List.mem_map.mp hctx
    obtain ⟨i, hi⟩ := List.mem_iff_getElem?.mp hbr
    rcases hI i br hi with hin | hclosed
    · rcases hof.ended hfin hbr with ⟨r, hpc⟩ | hpc <;> rw [hpc] at hin <;> cases hin
    · exact hclosed

theorem result_attempts (plan : FetchPlan) (l : Locals) (elapsed : ℚ) (ledger : List ProvenanceEvent) :
    (l.result plan elapsed ledger).attempts = l.context.attempts := by
  simp only [Locals.result, closingOutcomes]
  split <;> rfl

/-- **No attempt is left open**: a run whose adapters leave at most their last attempt
open when their work ends returns a result with every attempt closed. -/
theorem no_open_attempt (e : Engine) (plan : FetchPlan) (actions : List Action) (r : FetchResult)
    (hobeys : (machine e plan).Obeys (ClosesAttempts e).rule (.initial plan) actions)
    (hreturns : execute e plan actions = some r) :
    ∀ a ∈ r.attempts, a.status ≠ .running ∧ a.status ≠ .planned := by
  obtain ⟨s, hrun, hreturned⟩ := execute_eq_some hreturns
  have hinv := (closesAttempts_carries e plan).run (by simp [State.initial, AllClosed]) hobeys hrun
  have hphase := hinv.phase
  rw [hreturned] at hphase
  obtain ⟨-, elapsed, ledger, -, rfl, -⟩ := hphase
  intro a ha
  rw [result_attempts] at ha
  have hclosed := hinv.locals a ha
  constructor <;> intro hstatus <;> rw [hstatus] at hclosed <;> cases hclosed

/-- A crawl from the page of its root. -/
def crawlPlan : FetchPlan where
  request := {target := "https://example.org/", intent := "crawl"}
  nodes := [{id := "http", capabilityId := "http_get", adapter := "http"},
    {id := "crawl", capabilityId := "depth_limited_crawl", adapter := "discovery", dependencies := ["http"]}]

/-- The root is fetched and the crawl opens its attempt. -/
def crawlOpened : List Action :=
  [.advance, .node .resume, .node .resume,
    .node (.op (.addAttempt {capabilityId := "http_get", status := .succeeded, finished := true})),
    .node (.op (.addArtifact {artifactId := 0})), .node .returns, .node .resume, .advance,
    .advance, .node .resume, .node .resume,
    .node (.op (.addAttempt {capabilityId := "depth_limited_crawl", status := .running}))]

/-- The deadline ends the run. -/
def deadlineReached : List Action := [.tick 30, .node .expire, .node .interrupted, .node .resume, .advance, .advance]

/-- The deadline interrupts the crawl in its first batch. -/
def crawlCutAtOnce : List Action := crawlOpened ++ deadlineReached

theorem no_open_attempt_crawl :
    ∃ r, execute sampleEngine crawlPlan crawlCutAtOnce = some r ∧
      ∀ a ∈ r.attempts, a.status ≠ .running ∧ a.status ≠ .planned := by
  have hsome : (execute sampleEngine crawlPlan crawlCutAtOnce).isSome = true := by decide +kernel
  obtain ⟨r, hr⟩ := Option.isSome_iff_exists.mp hsome
  exact ⟨r, hr, no_open_attempt _ _ _ r (by decide +kernel) hr⟩

/-- The deadline interrupts the crawl in its second batch, with the page of the first merged. -/
def crawlCutAfterPage : List Action :=
  crawlOpened ++ [.node (.op (.addAttempt {capabilityId := "http_get", status := .succeeded, finished := true}))] ++
    deadlineReached

/-- The handler looks at the page's attempt only: the crawl's own stays open. -/
theorem crawl_attempt_left_running :
    ∃ r, execute sampleEngine crawlPlan crawlCutAfterPage = some r ∧ ∃ a ∈ r.attempts, a.status = .running := by
  have hstatuses : (execute sampleEngine crawlPlan crawlCutAfterPage).map (fun r => r.attempts.map (·.status)) =
      some [.succeeded, .running, .succeeded] := by decide +kernel
  obtain ⟨r, hr, hstatus⟩ := Option.map_eq_some_iff.mp hstatuses
  refine ⟨r, hr, ?_⟩
  have hmem : AttemptStatus.running ∈ r.attempts.map (·.status) := by simp [hstatus]
  exact List.mem_map.mp hmem

end Fetech.Executor
