import Fetech.Executor.Losers

/-! Every node the loop reaches leaves an outcome, and calls begin only where they may.

The skips, the handlers and the end of a success record an outcome if the adapter did
not. A loser cancelled before it enters its `try` block, or between the return of its
adapter and the end of its flush, leaves none: `CancelsRecorded` rules that out. A
sibling that has still a call to make when a branch stops the run makes it before the
batch hears of the stop: `StopsAlone` rules that out. -/
namespace Fetech.Executor

/-! ### Outcomes of a task -/

/-- The task has an outcome of its capability past the first `n`. -/
def Task.Recorded (n : Nat) (t : Task) : Prop :=
  ∃ o ∈ t.context.capabilityOutcomes.drop n, o.capabilityId = t.node.capabilityId

instance (n : Nat) (t : Task) : Decidable (t.Recorded n) :=
  inferInstanceAs (Decidable (∃ o ∈ t.context.capabilityOutcomes.drop n, o.capabilityId = t.node.capabilityId))

/-- A cancellation now leaves the node with an outcome. -/
def Task.outcomeSafe (t : Task) : Bool :=
  match t.pc with
  | .created => false
  | .starting => false
  | .flushing _ .continuing => decide (t.Recorded t.outcomeCount)
  | _ => true

/-- Losers are cancelled only where they leave an outcome. -/
def CancelsRecorded : Discipline where
  task _ _ _ := True
  cancel t := t.outcomeSafe = true

instance (q : ℚ) (t : Task) (ev : TaskEvent) : Decidable (CancelsRecorded.task q t ev) :=
  inferInstanceAs (Decidable True)

instance (t : Task) : Decidable (CancelsRecorded.cancel t) := inferInstanceAs (Decidable (_ = true))

/-- What is recorded, by where the task is. -/
def Task.OutcomeAt (n : Nat) (t : Task) : Prop :=
  match t.pc with
  | .created => t.context.capabilityOutcomes.length = n ∧ t.cancelRequested = false
  | .starting => t.context.capabilityOutcomes.length = n ∧ t.cancelRequested = false
  | .calling _ => t.outcomeCount = n
  | .backoff _ => t.outcomeCount = n
  | .flushing _ .continuing => t.outcomeCount = n ∧ (t.cancelRequested = true → t.Recorded n)
  | _ => t.Recorded n

structure Task.OutcomeInv (ctx : ExecutionContext) (t : Task) : Prop where
  grows : ctx.capabilityOutcomes <+: t.context.capabilityOutcomes
  at_ : t.OutcomeAt ctx.capabilityOutcomes.length

section
variable {e : Engine} {plan : FetchPlan} {elapsed : ℚ} {id n : Nat} {t t' : Task} {ev : TaskEvent}

theorem recordOutcome_recorded (ctx : ExecutionContext) (capabilityId stage : String) (status : OutcomeStatus)
    (details : List (String × Detail)) (hn : n ≤ ctx.capabilityOutcomes.length) :
    ∃ o ∈ (ctx.recordOutcome capabilityId status stage details).capabilityOutcomes.drop n,
      o.capabilityId = capabilityId := by
  refine ⟨{capabilityId, status, stage, details}, ?_, rfl⟩
  simp [ExecutionContext.recordOutcome, List.drop_append_of_le_length hn]

/-- `_ensure_outcome` ensures it. -/
theorem ensureOutcome_recorded {ctx : ExecutionContext} (node : PlanNode) (status : OutcomeStatus)
    (details : List (String × Detail)) (hn : n ≤ ctx.capabilityOutcomes.length) :
    ∃ o ∈ (ensureOutcome ctx node n status details).capabilityOutcomes.drop n, o.capabilityId = node.capabilityId := by
  unfold ensureOutcome
  split
  · rename_i hany
    obtain ⟨o, ho, heq⟩ := List.any_eq_true.mp hany
    exact ⟨o, ho, by simpa using heq⟩
  · exact recordOutcome_recorded _ _ _ _ _ hn

theorem handle_recorded (err : AdapterError) (hcount : t.outcomeCount = n)
    (hn : n ≤ t.context.capabilityOutcomes.length) : (t.handle e err).OutcomeAt n := by
  show ∃ o ∈ (t.handledContext e err).capabilityOutcomes.drop n, o.capabilityId = t.node.capabilityId
  subst hcount
  exact ensureOutcome_recorded _ _ _ hn

theorem handleCancel_recorded (hcount : t.outcomeCount = n) (hn : n ≤ t.context.capabilityOutcomes.length) :
    t.handleCancel.OutcomeAt n := by
  show ∃ o ∈ t.cancelledContext.capabilityOutcomes.drop n, o.capabilityId = t.node.capabilityId
  subst hcount
  exact ensureOutcome_recorded _ _ _ hn

theorem interrupt_recorded (hcount : t.outcomeCount = n) (hn : n ≤ t.context.capabilityOutcomes.length) :
    (t.interrupt e).OutcomeAt n := by
  unfold Task.interrupt
  split
  · exact handleCancel_recorded hcount hn
  · exact handle_recorded _ hcount hn

theorem call_recorded (k : Nat) (hcount : t.outcomeCount = n) (hn : n ≤ t.context.capabilityOutcomes.length) :
    (t.call e k).OutcomeAt n := by
  unfold Task.call
  split
  · exact handle_recorded _ hcount hn
  · exact hcount

theorem caught_recorded (k : Nat) (err : AdapterError) (hcount : t.outcomeCount = n)
    (hn : n ≤ t.context.capabilityOutcomes.length) : (t.caught e k err).OutcomeAt n := by
  unfold Task.caught
  split
  · split
    · exact hcount
    · exact call_recorded _ hcount hn
  · exact handle_recorded _ hcount hn

theorem admitted_recorded (hcount : t.outcomeCount = n) (hn : n ≤ t.context.capabilityOutcomes.length) :
    (t.admitted e plan elapsed).OutcomeAt n := by
  unfold Task.admitted
  split
  · exact handle_recorded _ hcount hn
  · split
    · exact handle_recorded _ hcount hn
    · exact call_recorded 0 hcount hn

/-- Through the `finally` block with an outcome already there. -/
theorem flushFrom_recorded (i : Nat) (exit : Exit) (hne : exit ≠ .continuing) (h : t.Recorded n) :
    (t.flushFrom i exit).OutcomeAt n := by
  unfold Task.flushFrom
  split <;> cases exit <;> first | exact h | exact absurd rfl hne

/-- Through the `finally` block after a success. -/
theorem flushFrom_continuing (i : Nat) (hcount : t.outcomeCount = n)
    (hn : n ≤ t.context.capabilityOutcomes.length) (hc : t.cancelRequested = false) :
    (t.flushFrom i .continuing).OutcomeAt n := by
  unfold Task.flushFrom
  split
  · exact ⟨hcount, fun h => by rw [show t.cancelRequested = true from h] at hc; cases hc⟩
  · subst hcount
    exact ensureOutcome_recorded t.node _ _ hn

theorem move_outcome {ctx : ExecutionContext} (hmove : Task.Move e plan elapsed id t ev t')
    (h : t.OutcomeInv ctx) : t'.OutcomeInv ctx := by
  refine ⟨h.grows.trans hmove.follows.grows.outcomes, ?_⟩
  have hat := h.at_
  have hn := h.grows.length_le
  unfold Task.OutcomeAt at hat
  cases hmove with
  | op k o hpc =>
    rw [hpc] at hat
    simpa [Task.OutcomeAt, hpc] using hat
  | start hpc hc =>
    rw [hpc] at hat
    unfold Task.start
    split
    · exact hat
    · exact recordOutcome_recorded _ _ _ _ _ hat.1.ge
  | enter hpc hc =>
    rw [hpc] at hat
    exact admitted_recorded (t := t.opened id) hat.1 hat.1.ge
  | retry k hpc hc =>
    rw [hpc] at hat
    exact call_recorded _ hat hn
  | handled w r hpc hc =>
    rw [hpc] at hat
    exact flushFrom_recorded _ _ (by simp) hat
  | cancelHandled hpc hc =>
    rw [hpc] at hat
    exact flushFrom_recorded _ _ (by simp) hat
  | flushed i exit hpc hc =>
    rw [hpc] at hat
    cases exit with
    | continuing => exact flushFrom_continuing _ hat.1 hn hc
    | returning r => exact flushFrom_recorded _ _ (by simp) hat
    | raising => exact flushFrom_recorded _ _ (by simp) hat
  | finished hpc hc =>
    rw [hpc] at hat
    exact hat
  | returns k hpc hc =>
    rw [hpc] at hat
    exact flushFrom_continuing (t := {t with fate := .returned}) _ hat hn hc
  | raises k err hpc hc =>
    rw [hpc] at hat
    exact caught_recorded k err hat hn
  | expire k hpc hc =>
    rw [hpc] at hat
    simpa [Task.OutcomeAt, hpc] using hat
  | expireBackoff k hpc hc =>
    rw [hpc] at hat
    exact interrupt_recorded hat hn
  | interrupted k hpc hc =>
    rw [hpc] at hat
    exact interrupt_recorded hat hn
  -- a task that has not entered its `try` block was not cancelled
  | dropped w hpc hc =>
    rcases hpc with hpc | hpc <;> rw [hpc] at hat <;> rw [hat.2] at hc <;> cases hc
  | thrown w k hpc hc =>
    rw [hpc] at hat
    simpa [Task.OutcomeAt, hpc] using hat
  | woken w k hpc hc =>
    rw [hpc] at hat
    exact handleCancel_recorded (t := {t with cancelRequested := false, cancelDelivered := true}) hat hn
  | handlerCut w ev r hpc hc =>
    rw [hpc] at hat
    exact flushFrom_recorded (t := {t with cancelRequested := false}) _ _ (by simp) hat
  | flushCut w i exit hpc hc =>
    rw [hpc] at hat
    cases exit with
    | continuing => exact hat.2 hc
    | returning r => exact hat
    | raising => exact hat
  | finishCut w hpc hc =>
    rw [hpc] at hat
    exact hat

end

/-! ### Outcomes of a run -/

/-- The batch is the next stretch of the plan. -/
theorem batchAt_leads {plan : FetchPlan} {l : Locals} {first : PlanNode} (hat : AtNode plan l first) :
    l.batchAt plan first <+: plan.nodes.drop l.nodeIndex := by
  have hhead : [first] <+: plan.nodes.drop l.nodeIndex := by
    obtain ⟨hlt, hfirst⟩ := List.getElem?_eq_some_iff.mp hat.next
    rw [List.drop_eq_getElem_cons hlt, hfirst]
    exact List.prefix_append [first] _
  unfold Locals.batchAt parallelBatch
  simp only
  split
  · exact hhead
  · split
    · exact hhead
    · exact (List.take_prefix _ _).trans (List.takeWhile_prefix _)

/-- What the loop has passed once a batch is joined. -/
theorem Batch.Of.take_joinBatch {plan : FetchPlan} {l : Locals} {first : PlanNode} {b : Batch}
    (hof : b.Of plan l first) :
    plan.nodes.take (l.joinBatch b).nodeIndex = plan.nodes.take l.nodeIndex ++ b.branches.map (·.task.node) := by
  have hindex : (l.joinBatch b).nodeIndex = l.nodeIndex + b.branches.length := rfl
  have hstretch : (plan.nodes.drop l.nodeIndex).take b.branches.length = b.branches.map (·.task.node) := by
    rw [hof.nodes, hof.length_eq]
    exact (List.prefix_iff_eq_take.mp (batchAt_leads hof.atNode)).symm
  rw [hindex, List.take_add, hstretch]

theorem Batch.Of.passed {plan : FetchPlan} {l : Locals} {first node : PlanNode} {b : Batch} (hof : b.Of plan l first)
    (h : node ∈ plan.nodes.take (l.joinBatch b).nodeIndex) :
    node ∈ plan.nodes.take l.nodeIndex ∨ ∃ br ∈ b.branches, br.task.node = node := by
  rw [hof.take_joinBatch, List.mem_append, List.mem_map] at h
  exact h

/-- Every node of a batch is ready, and wanted. -/
theorem mem_batchAt {plan : FetchPlan} {l : Locals} {first node : PlanNode} (hat : AtNode plan l first)
    (h : node ∈ l.batchAt plan first) :
    ready l.completed node = true ∧ (l.context.accepted && isFallback node) = false := by
  have hfirst : node = first → ready l.completed node = true ∧
      (l.context.accepted && isFallback node) = false := by
    rintro rfl
    exact ⟨hat.ready, hat.wanted⟩
  unfold Locals.batchAt parallelBatch at h
  simp only at h
  split at h
  · exact hfirst (List.mem_singleton.mp h)
  · split at h
    · exact hfirst (List.mem_singleton.mp h)
    · have hjoins := List.all_eq_true.mp List.all_takeWhile node (List.mem_of_mem_take h)
      simp only [Bool.and_eq_true, Bool.not_eq_true', and_assoc] at hjoins
      exact ⟨hjoins.2.2.1, hjoins.2.2.2⟩

/-- The outcomes hold one for each node the loop has passed, in the order of the plan. -/
def PassedRecorded (plan : FetchPlan) (l : Locals) : Prop :=
  ((plan.nodes.take l.nodeIndex).map (·.capabilityId)).Sublist (l.context.capabilityOutcomes.map (·.capabilityId))

theorem PassedRecorded.succ {plan : FetchPlan} {l l' : Locals} {node : PlanNode} (h : PassedRecorded plan l)
    (hnode : plan.nodes[l.nodeIndex]? = some node) (hindex : l'.nodeIndex = l.nodeIndex + 1)
    (hgrows : l.context.capabilityOutcomes <+: l'.context.capabilityOutcomes)
    (hnew : ∃ o ∈ l'.context.capabilityOutcomes.drop l.context.capabilityOutcomes.length,
      o.capabilityId = node.capabilityId) : PassedRecorded plan l' := by
  obtain ⟨added, hadded⟩ := hgrows
  rw [← hadded, List.drop_left] at hnew
  obtain ⟨o, ho, heq⟩ := hnew
  unfold PassedRecorded
  rw [hindex, List.take_add_one, hnode, ← hadded, List.map_append, List.map_append]
  exact h.append (List.singleton_sublist.mpr (List.mem_map.mpr ⟨o, ho, heq⟩))

theorem outcomes_carries (e : Engine) (plan : FetchPlan) :
    Carries e plan CancelsRecorded (PassedRecorded plan) Task.OutcomeInv where
  single l node _ _ := ⟨List.prefix_rfl, rfl, rfl⟩
  branch l first i node _ _ _ _ := ⟨List.prefix_rfl, rfl, rfl⟩
  move ctx t ev t' elapsed id hI _ hmove := move_outcome hmove hI
  cancel ctx t reason hI hpending hsafe := by
    refine ⟨hI.grows, ?_⟩
    have hat := hI.at_
    have hsafe : t.outcomeSafe = true := hsafe
    have hpc : (t.cancel reason).pc = t.pc := rfl
    unfold Task.OutcomeAt at hat ⊢
    unfold Task.outcomeSafe at hsafe
    rw [hpc]
    split at hat <;> simp_all [Task.cancel, Task.Recorded]
  skipDependencies l node hL hnode _ _ :=
    hL.succ hnode rfl (List.prefix_append _ _) (recordOutcome_recorded _ _ _ _ _ le_rfl)
  skipFallback l node hL hnode _ _ _ _ _ :=
    hL.succ hnode rfl (List.prefix_append _ _) (recordOutcome_recorded _ _ _ _ _ le_rfl)
  resume l t r hL hat hI hpc := by
    have hrecorded := hI.at_
    unfold Task.OutcomeAt at hrecorded
    rw [hpc] at hrecorded
    exact hL.succ hat.next rfl hI.grows hrecorded
  join l first b hL hof hI hfin := by
    have houtcomes : (l.joinBatch b).context.capabilityOutcomes = l.context.capabilityOutcomes ++
        ((b.branches.map (·.task.context)).map fun c => c.capabilityOutcomes.drop b.baseline.capabilityOutcomes).flatten :=
      mergeAll_outcomes _ _ _
    unfold PassedRecorded
    rw [houtcomes, hof.take_joinBatch, hof.baseline, List.map_append, List.map_append, List.map_map, List.map_map,
      List.map_flatten, List.map_map]
    refine hL.append (Lib.Lists.map_sublist_flatMap fun br hbr => ?_)
    obtain ⟨i, hi⟩ := List.mem_iff_getElem?.mp hbr
    have hrecorded := (hI i br hi).at_
    unfold Task.OutcomeAt at hrecorded
    have hat : br.task.Recorded l.context.capabilityOutcomes.length := by
      rcases hof.ended hfin hbr with ⟨r, hpc⟩ | hpc <;> rw [hpc] at hrecorded <;> exact hrecorded
    obtain ⟨o, ho, heq⟩ := hat
    exact List.mem_map.mpr ⟨o, ho, heq⟩

/-! ### Calls -/

/-- The step that led here began a call of the adapter. -/
def Task.beginsCall (t' : Task) (ev : TaskEvent) : Bool :=
  match ev, t'.pc with
  | .resume, .calling _ => true
  | .raises _, .calling _ => true
  | _, _ => false

/-- The action calls the adapter of this node. -/
def Invokes (e : Engine) (plan : FetchPlan) (s : State) (a : Action) (node : PlanNode) : Prop :=
  match a with
  | .node ev => ∃ t t', s.phase = .single t ∧ t.step e plan s.elapsed s.ledger.length ev = some t' ∧
      t'.beginsCall ev = true ∧ t.node = node
  | .branch i ev => ∃ b br t', s.phase = .batch b ∧ b.branches[i]? = some br ∧
      br.task.step e plan s.elapsed s.ledger.length ev = some t' ∧ t'.beginsCall ev = true ∧ br.task.node = node
  | _ => False

/-- The task returned with `stop`. -/
def Task.stopped (t : Task) : Bool := t.result?.any (·.stop)

/-- A node has returned with `stop`. -/
def State.hasStopped (s : State) : Prop :=
  s.locals.stopped = true ∨ (∃ t ∈ s.phase.single?, t.stopped = true) ∨
    ∃ b ∈ s.phase.batch?, ∃ br ∈ b.branches, br.task.stopped = true

/-- The nodes under execution. -/
def Phase.executing : Phase → List PlanNode
  | .single t => [t.node]
  | .batch b => b.branches.map (·.task.node)
  | _ => []

/-- The task may still call its adapter. -/
def Task.mayCall (t : Task) : Bool :=
  match t.pc with
  | .created => !t.cancelRequested
  | .starting => !t.cancelRequested
  | .backoff _ => !t.cancelRequested
  | .calling k => decide (k < t.node.retry.maximum)
  | _ => false

/-- The task returns now, with `stop`. -/
def Task.returnsStop (t : Task) (ev : TaskEvent) : Bool :=
  match ev, t.pc with
  | .resume, .handling _ r => r.stop && decide (t.context.pendingEvents.length ≤ t.runtimeEventCount)
  | .resume, .flushing i (.returning r) => r.stop && decide (t.context.pendingEvents.length ≤ i + 1)
  | _, _ => false

/-- A branch stops the run only when no sibling has a call left to make. -/
def StopsAlone (s : State) : Action → Prop
  | .branch i ev => ∀ b ∈ s.phase.batch?, ∀ br ∈ b.branches[i]?, br.task.returnsStop ev = true →
      ∀ other ∈ b.branches.eraseIdx i, other.task.mayCall = false
  | _ => True

instance (s : State) : (a : Action) → Decidable (StopsAlone s a)
  | .branch i ev => inferInstanceAs (Decidable (∀ b ∈ s.phase.batch?, ∀ br ∈ b.branches[i]?,
      br.task.returnsStop ev = true → ∀ other ∈ b.branches.eraseIdx i, other.task.mayCall = false))
  | .tick _ | .advance | .node _ | .collect | .join => isTrue trivial

section
variable {e : Engine} {plan : FetchPlan} {elapsed : ℚ} {id : Nat} {t t' : Task} {ev : TaskEvent}

theorem flushFrom_mayCall (i : Nat) (exit : Exit) : (t.flushFrom i exit).mayCall = false := by
  unfold Task.flushFrom
  split
  · rfl
  · cases exit <;> rfl

theorem flushFrom_beginsCall (i : Nat) (exit : Exit) (ev : TaskEvent) :
    (t.flushFrom i exit).beginsCall ev = false := by
  unfold Task.flushFrom
  split
  · cases ev <;> rfl
  · cases exit <;> cases ev <;> rfl

theorem interrupt_pc : (t.interrupt e).pc.inAdapter = false ∧ (t.interrupt e).mayCall = false := by
  unfold Task.interrupt
  split <;> exact ⟨rfl, rfl⟩

/-- A task with no call left makes none and gets none. -/
theorem move_mayCall (hmove : Task.Move e plan elapsed id t ev t') (h : t.mayCall = false) :
    t'.mayCall = false ∧ t'.beginsCall ev = false := by
  cases hmove with
  | op k o hpc =>
    refine ⟨?_, rfl⟩
    simpa [Task.mayCall, hpc] using h
  | start hpc hc => simp [Task.mayCall, hpc, hc] at h
  | enter hpc hc => simp [Task.mayCall, hpc, hc] at h
  | retry k hpc hc => simp [Task.mayCall, hpc, hc] at h
  | handled w r hpc hc => exact ⟨flushFrom_mayCall _ _, flushFrom_beginsCall _ _ _⟩
  | cancelHandled hpc hc => exact ⟨flushFrom_mayCall _ _, flushFrom_beginsCall _ _ _⟩
  | flushed i exit hpc hc => exact ⟨flushFrom_mayCall _ _, flushFrom_beginsCall _ _ _⟩
  | finished hpc hc => exact ⟨rfl, rfl⟩
  | returns k hpc hc => exact ⟨flushFrom_mayCall _ _, rfl⟩
  | raises k err hpc hc =>
    have hlast : ¬ k < t.node.retry.maximum := by simpa [Task.mayCall, hpc] using h
    have hretries : retries e t.node.retry k err = false := by
      unfold retries
      split
      · simp [hlast]
      · rfl
    rw [Task.caught, if_neg (by simp [hretries])]
    exact ⟨rfl, rfl⟩
  | expire k hpc hc => exact ⟨by simpa [Task.mayCall, hpc] using h, rfl⟩
  | expireBackoff k hpc hc => exact ⟨interrupt_pc.2, rfl⟩
  | interrupted k hpc hc => exact ⟨interrupt_pc.2, rfl⟩
  | dropped w hpc hc => exact ⟨rfl, rfl⟩
  | thrown w k hpc hc => exact ⟨by simpa [Task.mayCall, hpc] using h, rfl⟩
  | woken w k hpc hc => exact ⟨rfl, rfl⟩
  | handlerCut w ev r hpc hc => exact ⟨flushFrom_mayCall _ _, rfl⟩
  | flushCut w i exit hpc hc => exact ⟨rfl, rfl⟩
  | finishCut w hpc hc => exact ⟨rfl, rfl⟩

theorem flushFrom_stopped {i : Nat} {exit : Exit} (h : (t.flushFrom i exit).stopped = true) :
    ∃ r, exit = .returning r ∧ r.stop = true ∧ t.context.pendingEvents.length ≤ i := by
  unfold Task.flushFrom at h
  split at h
  · cases h
  · rename_i hlen
    cases exit with
    | returning r => exact ⟨r, rfl, h, not_lt.mp hlen⟩
    | raising => cases h
    | continuing => cases h

theorem call_not_stopped (k : Nat) : (t.call e k).stopped = false := by
  unfold Task.call
  split <;> rfl

/-- Only the end of a handler returns with `stop`. -/
theorem move_stopped (hmove : Task.Move e plan elapsed id t ev t') (h : t'.stopped = true) :
    t.returnsStop ev = true := by
  cases hmove with
  | op k o hpc => simp [Task.stopped, Task.result?, hpc] at h
  | start hpc hc =>
    unfold Task.start at h
    split at h <;> cases h
  | enter hpc hc =>
    unfold Task.enter Task.admitted at h
    split at h
    · cases h
    · split at h
      · cases h
      · rw [call_not_stopped] at h
        cases h
  | retry k hpc hc =>
    rw [call_not_stopped] at h
    cases h
  | handled w r hpc hc =>
    obtain ⟨r', heq, hstop, hlen⟩ := flushFrom_stopped h
    cases heq
    simp [Task.returnsStop, hpc, hstop, hlen]
  | cancelHandled hpc hc =>
    obtain ⟨r, heq, -⟩ := flushFrom_stopped h
    cases heq
  | flushed i exit hpc hc =>
    obtain ⟨r, rfl, hstop, hlen⟩ := flushFrom_stopped h
    simp [Task.returnsStop, hpc, hstop, hlen]
  | finished hpc hc => cases h
  | returns k hpc hc =>
    obtain ⟨r, heq, -⟩ := flushFrom_stopped h
    cases heq
  | raises k err hpc hc =>
    unfold Task.caught at h
    split at h
    · split at h
      · cases h
      · rw [call_not_stopped] at h
        cases h
    · cases h
  | expire k hpc hc => simp [Task.stopped, Task.result?, hpc] at h
  | expireBackoff k hpc hc =>
    unfold Task.interrupt at h
    split at h <;> cases h
  | interrupted k hpc hc =>
    unfold Task.interrupt at h
    split at h <;> cases h
  | dropped w hpc hc => cases h
  | thrown w k hpc hc => simp [Task.stopped, Task.result?, hpc] at h
  | woken w k hpc hc => cases h
  | handlerCut w ev r hpc hc =>
    obtain ⟨r, heq, -⟩ := flushFrom_stopped h
    cases heq
  | flushCut w i exit hpc hc => cases h
  | finishCut w hpc hc => cases h

end

/-! ### Calls of a run -/

/-- Once a branch has stopped the run, no branch has a call left to make. -/
def Batch.Quiet (b : Batch) : Prop :=
  (∃ br ∈ b.branches, br.task.stopped = true) → ∀ br ∈ b.branches, br.task.mayCall = false

theorem mayCall_of_stopped {t : Task} (h : t.stopped = true) : t.mayCall = false := by
  unfold Task.stopped Task.result? at h
  unfold Task.mayCall
  split at h
  · rename_i hpc
    rw [hpc]
  · cases h

/-- A batch starts with fresh tasks. -/
theorem turn_fresh {plan : FetchPlan} {s s' : State} (hphase : s.phase = .looping) (h : s.turn plan = some s')
    {b : Batch} (hb : s'.phase = .batch b) : ∀ br ∈ b.branches, br.task.pc = .created := by
  unfold State.turn at h
  simp only at h
  split at h
  · cases h
    exact absurd hb (by unfold State.finish; simp only; split <;> simp)
  split at h
  · cases h
    exact absurd hb (by unfold State.finish; simp only; split <;> simp)
  split at h
  · cases h
    rw [hphase] at hb
    cases hb
  split at h
  · cases h
    rw [hphase] at hb
    cases hb
  split at h
  · obtain ⟨contexts, -, h⟩ := Option.bind_eq_some_iff.mp h
    cases h
    cases hb
    intro br hbr
    simp only [Batch.start, List.mem_map] at hbr
    obtain ⟨p, -, rfl⟩ := hbr
    rfl
  · cases h
    cases hb

theorem branch_quiet {e : Engine} {plan : FetchPlan} {elapsed : ℚ} {id i : Nat} {b : Batch} {br : Branch} {t' : Task}
    {ev : TaskEvent} (hq : b.Quiet) (hbr : b.branches[i]? = some br)
    (hmove : Task.Move e plan elapsed id br.task ev t')
    (hrule : br.task.returnsStop ev = true → ∀ other ∈ b.branches.eraseIdx i, other.task.mayCall = false) :
    ({b with branches := b.branches.set i {br with task := t'}} : Batch).Quiet := by
  rintro ⟨x, hx, hstopped⟩ y hy
  rcases Lib.Lists.mem_set_cases hx with rfl | hold
  · -- the stepping branch stops the run now: the rule speaks of its siblings
    rcases Lib.Lists.mem_set_cases hy with rfl | hother
    · exact mayCall_of_stopped hstopped
    · exact hrule (move_stopped hmove hstopped) y hother
  · -- another branch had stopped it before
    have hall := hq ⟨x, List.mem_of_mem_eraseIdx hold, hstopped⟩
    rcases Lib.Lists.mem_set_cases hy with rfl | hother
    · exact (move_mayCall hmove (hall br (List.mem_of_getElem? hbr))).1
    · exact hall y (List.mem_of_mem_eraseIdx hother)

theorem cancel_mayCall {t : Task} (reason : String) (h : t.mayCall = false) : (t.cancel reason).mayCall = false := by
  have hpc : (t.cancel reason).pc = t.pc := rfl
  unfold Task.mayCall at h ⊢
  rw [hpc]
  split at h <;> simp_all [Task.cancel]

theorem collect_quiet {b b' : Batch} (hq : b.Quiet) (h : b.collect = some b') : b'.Quiet := by
  -- collecting and cancelling move no task
  have hmay : ∀ (reason : String) (br : Branch), br.task.mayCall = false →
      (br.settle reason).task.mayCall = false := by
    intro reason br hbr
    rcases settle_cases reason br with ⟨-, heq⟩ | ⟨-, heq⟩ <;> rw [heq]
    · exact hbr
    · exact cancel_mayCall reason hbr
  have hstop : ∀ (reason : String) (br : Branch), (br.settle reason).task.stopped = br.task.stopped := by
    intro reason br
    rcases settle_cases reason br with ⟨-, heq⟩ | ⟨-, heq⟩ <;> rw [heq] <;> rfl
  obtain ⟨-, -, ⟨rfl, -⟩ | ⟨-, reason, rfl⟩⟩ := collect_cases h
  · rintro ⟨x, hx, hstopped⟩ y hy
    obtain ⟨x, hmem, rfl⟩ := List.mem_map.mp hx
    obtain ⟨y, hmem', rfl⟩ := List.mem_map.mp hy
    exact hq ⟨x, hmem, hstopped⟩ y hmem'
  · rintro ⟨x, hx, hstopped⟩ y hy
    obtain ⟨x, hmem, rfl⟩ := List.mem_map.mp hx
    obtain ⟨y, hmem', rfl⟩ := List.mem_map.mp hy
    rw [hstop] at hstopped
    exact hmay reason y (hq ⟨x, hmem, hstopped⟩ y hmem')

theorem step_quiet {e : Engine} {plan : FetchPlan} {s s' : State} {a : Action}
    (hq : ∀ b, s.phase = .batch b → b.Quiet) (hrule : StopsAlone s a) (h : s.step e plan a = some s') :
    ∀ b, s'.phase = .batch b → b.Quiet := by
  intro b hb
  cases a with
  | tick d =>
    simp only [State.step] at h
    split at h
    · cases h
      exact hq b hb
    · cases h
  | advance =>
    simp only [State.step] at h
    split at h
    · rename_i hphase
      rintro ⟨br, hbr, hstopped⟩
      have hpc := turn_fresh hphase h hb br hbr
      simp [Task.stopped, Task.result?, hpc] at hstopped
    · obtain ⟨r, -, rfl⟩ := Option.map_eq_some_iff.mp h
      cases hb
    · cases h
  | node ev =>
    simp only [State.step] at h
    split at h
    · obtain ⟨t', -, rfl⟩ := Option.map_eq_some_iff.mp h
      cases hb
    · cases h
  | branch i ev =>
    simp only [State.step] at h
    split at h
    · rename_i b₀ hphase
      obtain ⟨br, hbr, h⟩ := Option.bind_eq_some_iff.mp h
      obtain ⟨t', ht, h⟩ := Option.bind_eq_some_iff.mp h
      cases h
      cases hb
      exact branch_quiet (hq b₀ hphase) hbr (Task.step_move ht) (hrule b₀ (by rw [hphase]; rfl) br hbr)
    · cases h
  | collect =>
    simp only [State.step] at h
    split at h
    · rename_i b₀ hphase
      obtain ⟨b', hb', rfl⟩ := Option.map_eq_some_iff.mp h
      cases hb
      exact collect_quiet (hq b₀ hphase) hb'
    · cases h
  | join =>
    simp only [State.step] at h
    split at h
    · split at h
      · cases h
        cases hb
      · cases h
    · cases h

/-- Whoever is called is ready. -/
theorem Inv.ready_of_invokes {e : Engine} {plan : FetchPlan} {L : Locals → Prop}
    {I : ExecutionContext → Task → Prop} {s : State} {a : Action} {node : PlanNode} (hinv : Inv plan L I s)
    (h : Invokes e plan s a node) : ready s.locals.completed node = true ∧ s.locals.stopped = false := by
  have hp := hinv.phase
  unfold Invokes at h
  split at h
  · obtain ⟨t, t', hphase, -, -, rfl⟩ := h
    rw [hphase] at hp
    exact ⟨hp.1.ready, hp.1.running⟩
  · obtain ⟨b, br, t', hphase, hbr, -, -, rfl⟩ := h
    rw [hphase] at hp
    obtain ⟨first, hof, -⟩ := hp
    refine ⟨(mem_batchAt hof.atNode ?_).1, hof.atNode.running⟩
    rw [← hof.nodes]
    exact List.mem_map_of_mem (List.mem_of_getElem? hbr)
  · cases h

/-- Nothing is called once a node has stopped the run. -/
theorem Inv.not_invokes_of_stopped {e : Engine} {plan : FetchPlan} {L : Locals → Prop}
    {I : ExecutionContext → Task → Prop} {s : State} (hinv : Inv plan L I s)
    (hquiet : ∀ b, s.phase = .batch b → b.Quiet) (hstopped : s.hasStopped) (a : Action) (node : PlanNode) :
    ¬ Invokes e plan s a node := by
  intro h
  have hrunning := (hinv.ready_of_invokes h).2
  unfold Invokes at h
  split at h
  · obtain ⟨t, t', hphase, hstep, -, -⟩ := h
    rcases hstopped with hs | ⟨t₁, ht₁, hs⟩ | ⟨b, hb, -⟩
    · rw [hrunning] at hs
      cases hs
    · rw [hphase] at ht₁
      cases ht₁
      rw [Task.stopped, (Task.step_move hstep).not_done] at hs
      cases hs
    · rw [hphase] at hb
      cases hb
  · obtain ⟨b, br, t', hphase, hbr, hstep, hbegins, -⟩ := h
    rcases hstopped with hs | ⟨t₁, ht₁, -⟩ | ⟨b₁, hb₁, hs⟩
    · rw [hrunning] at hs
      cases hs
    · rw [hphase] at ht₁
      cases ht₁
    · rw [hphase] at hb₁
      cases hb₁
      have hmay := hquiet b hphase hs br (List.mem_of_getElem? hbr)
      rw [(move_mayCall (Task.step_move hstep) hmay).2] at hbegins
      cases hbegins
  · cases h

/-- A turn of the loop that starts nodes leaves the locals alone. -/
theorem turn_executing {plan : FetchPlan} {s s' : State} (hphase : s.phase = .looping)
    (h : s.turn plan = some s') : s'.phase.executing = [] ∨ s'.locals = s.locals := by
  unfold State.turn at h
  simp only at h
  split at h
  · cases h
    exact .inr rfl
  split at h
  · cases h
    exact .inr rfl
  split at h
  · cases h
    exact .inl (by rw [hphase]; rfl)
  split at h
  · cases h
    exact .inl (by rw [hphase]; rfl)
  split at h
  · obtain ⟨contexts, -, h⟩ := Option.bind_eq_some_iff.mp h
    cases h
    exact .inr rfl
  · cases h
    exact .inr rfl

/-- The loop starts no fallback once something is accepted. -/
theorem advance_wanted {e : Engine} {plan : FetchPlan} {L : Locals → Prop} {I : ExecutionContext → Task → Prop}
    {s s' : State} (hinv : Inv plan L I s') (hphase : s.phase = .looping)
    (h : s.step e plan .advance = some s') (haccepted : s.locals.context.accepted = true) :
    ∀ node ∈ s'.phase.executing, isFallback node = false := by
  simp only [State.step, hphase] at h
  intro node hnode
  rcases turn_executing hphase h with hnil | hlocals
  · rw [hnil] at hnode
    cases hnode
  have hp := hinv.phase
  rw [hlocals] at hp
  cases hphase' : s'.phase with
  | single t =>
    rw [hphase'] at hp hnode
    rw [List.mem_singleton.mp hnode]
    simpa [haccepted] using hp.1.wanted
  | batch b =>
    rw [hphase'] at hp hnode
    obtain ⟨first, hof, -⟩ := hp
    have hmem : node ∈ s.locals.batchAt plan first := by
      rw [← hof.nodes]
      exact hnode
    simpa [haccepted] using (mem_batchAt hof.atNode hmem).2
  | _ =>
    rw [hphase'] at hnode
    cases hnode

theorem result_outcomes (plan : FetchPlan) (l : Locals) (elapsed : ℚ) (ledger : List ProvenanceEvent) :
    l.context.capabilityOutcomes <+: (l.result plan elapsed ledger).capabilityOutcomes := by
  show l.context.capabilityOutcomes <+: (closingOutcomes plan l.context).capabilityOutcomes
  unfold closingOutcomes
  simp only
  split <;> simp only [ExecutionContext.recordOutcome, List.append_assoc] <;> exact List.prefix_append _ _

/-- The second extractor is interrupted in its adapter and the run goes to its end. -/
def loserRecorded : List Action := loserInterrupted ++ [.join, .advance]

/-- The first extractor wins before the second has run at all. -/
def loserNeverRun : List Action :=
  .advance :: firstAccepted ++ [.collect, .branch 1 (.deliver false), .join, .advance]

end Fetech.Executor
