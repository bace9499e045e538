import Fetech.Executor.Attempts

/-! What a batch reports of a branch, against what the branch's adapter did.

A batch reads a loser's result off its task: a cancelled task counts as a completed
alternative. That is right while the adapter is still at work. A task cancelled later,
while the handler of its error or the end of its success is being written, is reported
the same way, and the error is lost; `CancelsAtWork` rules that out. -/
namespace Fetech.Executor

/-- The adapter's work has not ended. -/
def Pc.atWork : Pc → Bool
  | .created => true
  | .starting => true
  | .calling _ => true
  | .backoff _ => true
  | _ => false

/-- Losers are cancelled only while their adapters are at work. -/
def CancelsAtWork : Discipline where
  task _ _ _ := True
  cancel t := t.pc.atWork = true

instance (q : ℚ) (t : Task) (ev : TaskEvent) : Decidable (CancelsAtWork.task q t ev) :=
  inferInstanceAs (Decidable True)

instance (t : Task) : Decidable (CancelsAtWork.cancel t) := inferInstanceAs (Decidable (_ = true))

/-- The flag of the error is set in a result. -/
def AdapterError.flagged (r : NodeExecution) : AdapterError → Bool
  | .budgetExhausted _ => r.budgetExhausted
  | .policyBlocked _ _ => r.policyBlocked
  | .dependency _ => r.dependencyMissing
  | .authExpired => r.authRequired
  | .authRequired => r.authRequired
  | .notFound _ => r.notFound
  | .timeout => r.budgetExhausted
  | .execution _ _ _ => r.failed
  | .value _ _ => r.failed

/-- Every handler sets the flag of its error and completes nothing. -/
theorem report_flagged (node : PlanNode) (err : AdapterError) :
    (err.report node).result.completed = false ∧ err.flagged (err.report node).result = true := by
  cases err <;> exact ⟨rfl, rfl⟩

/-- How the adapter's work ended, by where the task is. -/
def Pc.Tells (node : PlanNode) (fate : Fate) : Pc → Prop
  | .created => fate = .unfinished
  | .starting => fate = .unfinished
  | .calling _ => fate = .unfinished
  | .backoff _ => fate = .unfinished
  | .handling _ r => ∃ err, fate = .raised err ∧ r = (err.report node).result
  | .cancelHandling => fate = .interrupted
  | .flushing _ (.returning r) => ∃ err, fate = .raised err ∧ r = (err.report node).result
  | .flushing _ .raising => fate = .interrupted
  | .flushing _ .continuing => fate = .returned
  | .finishing => fate = .returned
  | .done r => (∃ err, fate = .raised err ∧ r = (err.report node).result) ∨ fate = .returned ∨ fate = .unfinished
  | .cancelled => fate = .unfinished ∨ fate = .interrupted

/-- The task's place tells its fate, and it is cancelled at work if at all. -/
structure Task.Honest (t : Task) : Prop where
  tells : t.pc.Tells t.node t.fate
  atWork : t.cancelRequested = true → t.pc.atWork = true

section
variable {e : Engine} {plan : FetchPlan} {elapsed : ℚ} {id : Nat} {t t' : Task} {ev : TaskEvent}

theorem handle_honest (err : AdapterError) (hc : t.cancelRequested = false) : (t.handle e err).Honest :=
  ⟨⟨err, rfl, rfl⟩, fun h => by rw [show t.cancelRequested = true from h] at hc; cases hc⟩

theorem interrupt_honest (hc : t.cancelRequested = false) : (t.interrupt e).Honest := by
  unfold Task.interrupt
  split
  · exact ⟨rfl, fun h => by rw [show t.cancelRequested = true from h] at hc; cases hc⟩
  · exact handle_honest _ hc

theorem call_honest (k : Nat) (hfate : t.fate = .unfinished) (hc : t.cancelRequested = false) :
    (t.call e k).Honest := by
  unfold Task.call
  split
  · exact handle_honest _ hc
  · exact ⟨hfate, fun _ => rfl⟩

theorem caught_honest (k : Nat) (err : AdapterError) (hfate : t.fate = .unfinished)
    (hc : t.cancelRequested = false) : (t.caught e k err).Honest := by
  unfold Task.caught
  split
  · split
    · exact ⟨hfate, fun _ => rfl⟩
    · exact call_honest _ hfate hc
  · exact handle_honest _ hc

theorem admitted_honest (hfate : t.fate = .unfinished) (hc : t.cancelRequested = false) :
    (t.admitted e plan elapsed).Honest := by
  unfold Task.admitted
  split
  · exact handle_honest _ hc
  · split
    · exact handle_honest _ hc
    · exact call_honest 0 hfate hc

/-- Leaving the `finally` block, by any of its exits. -/
theorem flushFrom_honest (i j : Nat) (exit : Exit) (h : (Pc.flushing j exit).Tells t.node t.fate)
    (hc : t.cancelRequested = false) : (t.flushFrom i exit).Honest := by
  have hnot : t.cancelRequested ≠ true := by simp [hc]
  unfold Task.flushFrom
  split
  · refine ⟨?_, fun h => absurd h hnot⟩
    cases exit <;> exact h
  · cases exit with
    | returning r => exact ⟨.inl h, fun h => absurd h hnot⟩
    | raising => exact ⟨.inr h, fun h => absurd h hnot⟩
    | continuing => exact ⟨h, fun h => absurd h hnot⟩

theorem move_honest (hmove : Task.Move e plan elapsed id t ev t') (h : t.Honest) : t'.Honest := by
  have htells := h.tells
  cases hmove with
  | op k o hpc => exact ⟨by simpa [hpc] using htells, h.atWork⟩
  | start hpc hc =>
    rw [hpc] at htells
    unfold Task.start
    split
    · exact ⟨htells, fun _ => rfl⟩
    · exact ⟨.inr (.inr htells), fun h => by rw [show t.cancelRequested = true from h] at hc; cases hc⟩
  | enter hpc hc =>
    rw [hpc] at htells
    exact admitted_honest (t := t.opened id) htells hc
  | retry k hpc hc =>
    rw [hpc] at htells
    exact call_honest _ htells hc
  | handled w r hpc hc =>
    rw [hpc] at htells
    exact flushFrom_honest _ 0 _ htells hc
  | cancelHandled hpc hc =>
    rw [hpc] at htells
    exact flushFrom_honest _ 0 _ htells hc
  | flushed i exit hpc hc =>
    rw [hpc] at htells
    exact flushFrom_honest _ i _ htells hc
  | finished hpc hc =>
    rw [hpc] at htells
    exact ⟨.inr (.inl htells), fun h => by rw [show t.cancelRequested = true from h] at hc; cases hc⟩
  | returns k hpc hc => exact flushFrom_honest (t := {t with fate := .returned}) _ 0 _ rfl hc
  | raises k err hpc hc =>
    rw [hpc] at htells
    exact caught_honest k err htells hc
  | expire k hpc hc => exact ⟨htells, h.atWork⟩
  | expireBackoff k hpc hc => exact interrupt_honest hc
  | interrupted k hpc hc => exact interrupt_honest hc
  | dropped w hpc hc =>
    refine ⟨.inl ?_, fun h => by cases h⟩
    rcases hpc with hpc | hpc <;> rw [hpc] at htells <;> exact htells
  | thrown w k hpc hc => exact ⟨htells, fun h => by cases h⟩
  | woken w k hpc hc => exact ⟨rfl, fun h => by cases h⟩
  -- a task past its adapter's work was not cancelled
  | handlerCut w ev r hpc hc =>
    have := h.atWork hc
    rw [hpc] at this
    cases this
  | flushCut w i exit hpc hc =>
    have := h.atWork hc
    rw [hpc] at this
    cases this
  | finishCut w hpc hc =>
    have := h.atWork hc
    rw [hpc] at this
    cases this

end

/-! ### Runs -/

theorem cancelsAtWork_carries (e : Engine) (plan : FetchPlan) :
    Carries e plan CancelsAtWork (fun _ => True) (fun _ t => t.Honest) where
  single l node _ _ := ⟨rfl, fun h => by cases h⟩
  branch l first i node _ _ _ _ := ⟨rfl, fun h => by cases h⟩
  move ctx t ev t' elapsed id hI _ hmove := move_honest hmove hI
  cancel ctx t reason hI _ hwork := ⟨hI.tells, fun _ => hwork⟩
  skipDependencies _ _ _ _ _ _ := trivial
  skipFallback _ _ _ _ _ _ _ _ _ := trivial
  resume _ _ _ _ _ _ _ := trivial
  join _ _ _ _ _ _ _ := trivial

/-- What a batch reports of a branch that has ended is what its task returned. -/
theorem Batch.Of.outcome_eq {plan : FetchPlan} {l : Locals} {first : PlanNode} {b : Batch} (hof : b.Of plan l first)
    {br : Branch} (hbr : br ∈ b.branches) : br.outcome = br.task.result?.getD {completed := true} := by
  unfold Branch.outcome
  rcases hof.results br hbr with hnone | ⟨heq, hsome⟩
  · rw [hnone]
    rfl
  · obtain ⟨r, hr⟩ := Option.isSome_iff_exists.mp hsome
    rw [heq, hr]
    rfl

/-- **A batch reports what its adapters did**: in every run that cancels losers only
while their adapters are at work, a branch whose adapter raised an error is reported as
not completed and with that error's flag, and a task reported as a cancelled
alternative is one whose adapter had not finished. -/
theorem batch_reports_errors (e : Engine) (plan : FetchPlan) (actions : List Action) (s : State) (b : Batch)
    (hobeys : (machine e plan).Obeys CancelsAtWork.rule (.initial plan) actions)
    (hrun : (machine e plan).run (.initial plan) actions = some s) (hphase : s.phase = .batch b)
    (hfinished : b.finished = true) :
    ∀ br ∈ b.branches,
      (∀ err, br.task.fate = .raised err → br.outcome.completed = false ∧ err.flagged br.outcome = true) ∧
      (br.task.pc = .cancelled → br.task.fate = .unfinished ∨ br.task.fate = .interrupted) := by
  have hinv := ((cancelsAtWork_carries e plan).run trivial hobeys hrun).phase
  rw [hphase] at hinv
  obtain ⟨first, hof, hI⟩ := hinv
  intro br hbr
  obtain ⟨i, hi⟩ := List.mem_iff_getElem?.mp hbr
  have htells := (hI i br hi).tells
  rw [hof.outcome_eq hbr]
  rcases hof.ended hfinished hbr with ⟨r, hpc⟩ | hpc
  · rw [hpc] at htells
    refine ⟨fun err herr => ?_, fun hcancelled => ?_⟩
    · rcases htells with ⟨err', hfate, rfl⟩ | hfate | hfate
      · rw [hfate] at herr
        cases herr
        rw [show br.task.result? = some (err.report br.task.node).result by simp [Task.result?, hpc]]
        exact report_flagged _ _
      · rw [hfate] at herr
        cases herr
      · rw [hfate] at herr
        cases herr
    · rw [hpc] at hcancelled
      cases hcancelled
  · rw [hpc] at htells
    refine ⟨fun err herr => ?_, fun _ => htells⟩
    rcases htells with hfate | hfate <;> rw [hfate] at herr <;> cases herr

/-- Two document extractors that run together. -/
def extractorPlan : FetchPlan where
  request := {target := "https://example.org/a.pdf"}
  nodes := [
    { id := "document-0-pdf", capabilityId := "pdf", adapter := "documents"
      parallelGroup := some "document-extractors", stopOnAcceptance := true },
    { id := "document-1-txt", capabilityId := "txt", adapter := "documents"
      parallelGroup := some "document-extractors", stopOnAcceptance := true }]

/-- The first extractor finishes with an accepted artifact. -/
def firstAccepted : List Action :=
  [.branch 0 .resume, .branch 0 .resume, .branch 0 (.op (.setAccepted true)), .branch 0 .returns, .branch 0 .resume]

/-- The second extractor is interrupted in its adapter. -/
def loserInterrupted : List Action :=
  [.advance, .branch 1 .resume, .branch 1 .resume] ++ firstAccepted ++
    [.collect, .branch 1 (.deliver false), .branch 1 .interrupted, .branch 1 .resume]

/-- The batch at the end of a run that waits for its join. -/
def finishedBatch (plan : FetchPlan) (actions : List Action) : Option Batch := do
  let s ← (machine sampleEngine plan).run (.initial plan) actions
  let b ← s.phase.batch?
  if b.finished then some b else none

theorem finishedBatch_eq_some {plan : FetchPlan} {actions : List Action} {b : Batch}
    (h : finishedBatch plan actions = some b) :
    ∃ s, (machine sampleEngine plan).run (.initial plan) actions = some s ∧ s.phase = .batch b ∧
      b.finished = true := by
  obtain ⟨s, hs, h⟩ := Option.bind_eq_some_iff.mp h
  obtain ⟨b', hb, h⟩ := Option.bind_eq_some_iff.mp h
  split at h
  · rename_i hfin
    cases h
    exact ⟨s, hs, Phase.eq_of_batch? hb, hfin⟩
  · cases h

theorem batch_reports_errors_interrupted :
    ∃ b, finishedBatch extractorPlan loserInterrupted = some b ∧ ∀ br ∈ b.branches,
      (∀ err, br.task.fate = .raised err → br.outcome.completed = false ∧ err.flagged br.outcome = true) ∧
      (br.task.pc = .cancelled → br.task.fate = .unfinished ∨ br.task.fate = .interrupted) := by
  have hsome : (finishedBatch extractorPlan loserInterrupted).isSome = true := by decide +kernel
  obtain ⟨b, hb⟩ := Option.isSome_iff_exists.mp hsome
  obtain ⟨s, hrun, hphase, hfin⟩ := finishedBatch_eq_some hb
  exact ⟨b, hb, batch_reports_errors _ _ _ s b (by decide +kernel) hrun hphase hfin⟩

/-- The second extractor fails; its handler is writing `attempt.failed` when the first
one wins. -/
def loserFailed : List Action :=
  [.advance, .branch 1 .resume, .branch 1 .resume, .branch 1 (.raises (.value "ValueError" "not text"))] ++
    firstAccepted ++ [.collect, .branch 1 (.deliver false)]

/-- The failure is reported as a completed alternative. -/
theorem failed_loser_reported_completed :
    ∃ b, finishedBatch extractorPlan loserFailed = some b ∧ ∃ br ∈ b.branches, ∃ err,
      br.task.fate = .raised err ∧ br.outcome.completed = true ∧ err.flagged br.outcome = false := by
  have hreport : (finishedBatch extractorPlan loserFailed).map
      (fun b => b.branches.map fun br => (br.task.fate, br.outcome)) =
      some [(.returned, {completed := true}), (.raised (.value "ValueError" "not text"), {completed := true})] := by
    decide +kernel
  obtain ⟨b, hb, hbranches⟩ := Option.map_eq_some_iff.mp hreport
  have hmem : (Fate.raised (.value "ValueError" "not text"), ({completed := true} : NodeExecution)) ∈
      b.branches.map fun br => (br.task.fate, br.outcome) := by simp [hbranches]
  obtain ⟨br, hbr, heq⟩ := List.mem_map.mp hmem
  obtain ⟨hfate, houtcome⟩ := Prod.mk.inj heq
  exact ⟨b, hb, br, hbr, _, hfate, by rw [houtcome], by rw [houtcome]; rfl⟩

end Fetech.Executor
