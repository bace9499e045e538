import Fetech.Executor.Outcomes
import Fetech.Executor.AttemptLimit
import Mathlib.Algebra.Order.BigOperators.Group.List

/-! A run comes to its end.

`State.cost` bounds how many steps the executor still has to take. Every step but the
passing of time and an adapter's own work lowers it, and all an adapter can add is one
ledger write for an event it queues; so a run whose adapter calls end is over after
finitely many steps. Until then some step is always possible. -/
namespace Fetech.Executor

/-! ### The cost of a task -/

namespace Task

/-- What is left to write in the `finally` block. -/
def writes (t : Task) : Nat := t.context.pendingEvents.length - t.runtimeEventCount

/-- A requested cancellation is still to be thrown. -/
def debt (t : Task) : Nat := if t.cancelRequested then 1 else 0

/-- A bound on the steps left from where the task is suspended. -/
def stepsLeft (t : Task) : Nat :=
  match t.pc with
  | .created => 3 * t.node.retry.maximum + 8
  | .starting => 3 * t.node.retry.maximum + 7
  | .calling k => t.writes + 3 * (t.node.retry.maximum - k) + 5 + (if t.expired then 0 else 1)
  | .backoff k => t.writes + 3 * (t.node.retry.maximum - k) + 4
  | .handling _ _ => t.writes + 3
  | .cancelHandling => t.writes + 3
  | .flushing i _ => t.context.pendingEvents.length - i + 2
  | .finishing => 1
  | .done _ => 0
  | .cancelled => 0

/-- A bound on the steps left to a task. -/
def cost (t : Task) : Nat := t.debt + t.stepsLeft

/-- A pause is followed by a call the retry rule allows. -/
def PausesToRetry (t : Task) : Prop := ∀ k, t.pc = .backoff k → k < t.node.retry.maximum

end Task

section
variable {e : Engine} {plan : FetchPlan} {elapsed : ℚ} {id : Nat} {t t' : Task} {ev : TaskEvent}

@[simp] theorem ensureOutcome_pendingEvents (ctx : ExecutionContext) (node : PlanNode) (n : Nat)
    (status : OutcomeStatus) (details : List (String × Detail)) :
    (ensureOutcome ctx node n status details).pendingEvents = ctx.pendingEvents := by
  unfold ensureOutcome
  split <;> rfl

theorem handle_cost (err : AdapterError) : (t.handle e err).cost = t.debt + (t.writes + 3) := by
  show t.debt + ((t.handledContext e err).pendingEvents.length - _ + 3) = _
  simp only [Task.handledContext, ensureOutcome_pendingEvents]
  rfl

theorem handleCancel_cost : t.handleCancel.cost = t.debt + (t.writes + 3) := by
  show t.debt + (t.cancelledContext.pendingEvents.length - _ + 3) = _
  simp only [Task.cancelledContext, ensureOutcome_pendingEvents]
  rfl

theorem interrupt_cost : (t.interrupt e).cost = t.debt + (t.writes + 3) := by
  unfold Task.interrupt
  split
  · exact handleCancel_cost
  · exact handle_cost _

theorem call_cost (k : Nat) : (t.call e k).cost ≤
    t.debt + (t.writes + 3 * (t.node.retry.maximum - k) + 5 + (if t.expired then 0 else 1)) := by
  unfold Task.call
  split
  · rw [handle_cost]
    omega
  · exact le_refl _

theorem retries_lt {retry : RetryRule} {k : Nat} {err : AdapterError} (h : retries e retry k err = true) :
    k < retry.maximum := by
  unfold retries at h
  split at h
  · rw [Bool.and_eq_true] at h
    exact of_decide_eq_true h.1
  · cases h

theorem caught_cost (k : Nat) (err : AdapterError) : (t.caught e k err).cost <
    t.debt + (t.writes + 3 * (t.node.retry.maximum - k) + 5 + (if t.expired then 0 else 1)) := by
  unfold Task.caught
  split
  · rename_i hretry
    have hlt := retries_lt hretry
    split
    · show t.debt + (t.writes + 3 * (t.node.retry.maximum - k) + 4) < _
      omega
    · have hcall := call_cost (e := e) (t := t) (k + 1)
      omega
  · rw [handle_cost]
    omega

theorem admitted_cost : (t.admitted e plan elapsed).cost ≤ t.debt + (t.writes + 3 * t.node.retry.maximum + 6) := by
  unfold Task.admitted
  split
  · rw [handle_cost]
    omega
  · split
    · unfold Task.late
      rw [handle_cost]
      show t.debt + (t.writes + 3) ≤ _
      omega
    · have hcall := call_cost (e := e) (t := t) 0
      split at hcall <;> omega

theorem flushFrom_cost (i : Nat) (exit : Exit) : (t.flushFrom i exit).cost ≤
    t.debt + if i < t.context.pendingEvents.length then t.context.pendingEvents.length - i + 2 else 1 := by
  unfold Task.flushFrom
  split
  · exact le_refl _
  · cases exit with
    | returning r => exact Nat.le_add_right _ _
    | raising => exact Nat.le_add_right _ _
    | continuing => exact le_refl _

theorem flush_cost (exit : Exit) : (t.flush exit).cost ≤ t.debt + (t.writes + 2) := by
  have h := flushFrom_cost (t := t) t.runtimeEventCount exit
  unfold Task.writes
  rw [Task.flush]
  split at h <;> omega

/-- Every step but the adapter's own work brings the task nearer its end. -/
theorem move_cost (hmove : Task.Move e plan elapsed id t ev t') (hpause : t.PausesToRetry)
    (hop : ∀ o, ev ≠ .op o) : t'.cost < t.cost := by
  cases hmove with
  | op k o hpc => exact absurd rfl (hop o)
  | start hpc hc =>
    unfold Task.start
    split <;> simp [Task.cost, Task.stepsLeft, Task.debt, hpc, hc]
  | enter hpc hc =>
    have hold : t.cost = t.debt + (3 * t.node.retry.maximum + 7) := by simp [Task.cost, Task.stepsLeft, hpc]
    have hnew : ((t.opened id).admitted e plan elapsed).cost ≤ _ := admitted_cost
    have hwrites : (t.opened id).writes = 0 := by simp [Task.writes, Task.opened]
    rw [hwrites] at hnew
    change _ ≤ t.debt + (0 + 3 * t.node.retry.maximum + 6) at hnew
    rw [hold, Task.enter]
    omega
  | retry k hpc hc =>
    have hold : t.cost = t.debt + (t.writes + 3 * (t.node.retry.maximum - k) + 4) := by simp [Task.cost, Task.stepsLeft, hpc]
    have hlt := hpause k hpc
    have hcall := call_cost (e := e) (t := t) (k + 1)
    rw [hold]
    split at hcall <;> omega
  | handled w r hpc hc =>
    have hold : t.cost = t.debt + (t.writes + 3) := by simp [Task.cost, Task.stepsLeft, hpc]
    have hnew := flush_cost (t := t) (.returning r)
    omega
  | cancelHandled hpc hc =>
    have hold : t.cost = t.debt + (t.writes + 3) := by simp [Task.cost, Task.stepsLeft, hpc]
    have hnew := flush_cost (t := t) .raising
    omega
  | flushed i exit hpc hc =>
    have hold : t.cost = t.debt + (t.context.pendingEvents.length - i + 2) := by simp [Task.cost, Task.stepsLeft, hpc]
    have hnew := flushFrom_cost (t := t) (i + 1) exit
    rw [hold]
    split at hnew <;> omega
  | finished hpc hc => simp [Task.cost, Task.stepsLeft, Task.debt, hpc, hc]
  | returns k hpc hc =>
    have hold : t.cost = t.debt + (t.writes + 3 * (t.node.retry.maximum - k) + 5 + (if t.expired then 0 else 1)) := by
      simp [Task.cost, Task.stepsLeft, hpc]
    have hnew := flush_cost (t := {t with fate := .returned}) .continuing
    change _ ≤ t.debt + (t.writes + 2) at hnew
    omega
  | raises k err hpc hc =>
    have hold : t.cost = t.debt + (t.writes + 3 * (t.node.retry.maximum - k) + 5 + (if t.expired then 0 else 1)) := by
      simp [Task.cost, Task.stepsLeft, hpc]
    rw [hold]
    exact caught_cost k err
  | expire k hpc hc hx => simp [Task.cost, Task.stepsLeft, Task.debt, Task.writes, hpc, hx]
  | expireBackoff k hpc hc =>
    have hold : t.cost = t.debt + (t.writes + 3 * (t.node.retry.maximum - k) + 4) := by simp [Task.cost, Task.stepsLeft, hpc]
    rw [interrupt_cost, hold]
    omega
  | interrupted k hpc hc =>
    have hold : t.cost = t.debt + (t.writes + 3 * (t.node.retry.maximum - k) + 5 + (if t.expired then 0 else 1)) := by
      simp [Task.cost, Task.stepsLeft, hpc]
    rw [interrupt_cost, hold]
    omega
  | dropped w hpc hc => rcases hpc with hpc | hpc <;> simp [Task.cost, Task.stepsLeft, Task.debt, hpc, hc]
  | thrown w k hpc hc => simp [Task.cost, Task.stepsLeft, Task.debt, Task.writes, hpc, hc]
  | woken w k hpc hc =>
    have hold : t.cost = 1 + (t.writes + 3 * (t.node.retry.maximum - k) + 4) := by simp [Task.cost, Task.stepsLeft, Task.debt, hpc, hc]
    rw [handleCancel_cost, hold]
    show 0 + (t.writes + 3) < _
    omega
  | handlerCut w ev r hpc hc =>
    have hold : t.cost = 1 + (t.writes + 3) := by simp [Task.cost, Task.stepsLeft, Task.debt, hpc, hc]
    have hnew := flush_cost (t := {t with cancelRequested := false}) .raising
    change _ ≤ 0 + (t.writes + 2) at hnew
    omega
  | flushCut w i exit hpc hc => simp [Task.cost, Task.stepsLeft, Task.debt, hpc, hc]
  | finishCut w hpc hc => simp [Task.cost, Task.stepsLeft, Task.debt, hpc, hc]

/-- An adapter adds at most the write of an event it queues. -/
theorem op_cost (k : Nat) (o : ContextOp) (hpc : t.pc = .calling k) :
    Task.cost {t with context := o.apply t.context} ≤ t.cost + 1 := by
  have hevents : (o.apply t.context).pendingEvents.length ≤ t.context.pendingEvents.length + 1 := by
    cases o <;> simp [ContextOp.apply, ExecutionContext.recordRuntimeEvent]
  simp only [Task.cost, Task.stepsLeft, Task.debt, Task.writes, hpc]
  omega

theorem move_pausesToRetry (hmove : Task.Move e plan elapsed id t ev t') (h : t.PausesToRetry) :
    t'.PausesToRetry := by
  have hcall : ∀ (u : Task) (k : Nat), (u.call e k).PausesToRetry := by
    intro u k j hj
    unfold Task.call at hj
    split at hj <;> cases hj
  have hflush : ∀ (u : Task) (i : Nat) (exit : Exit), (u.flushFrom i exit).PausesToRetry := by
    intro u i exit j hj
    have hin := flushFrom_inAdapter (t := u) i exit
    rw [hj] at hin
    cases hin
  have hinterrupt : ∀ u : Task, (u.interrupt e).PausesToRetry := by
    intro u j hj
    have hin := interrupt_pc (e := e) (t := u)
    rw [hj] at hin
    cases hin.1
  cases hmove with
  | op k o hpc => exact fun j hj => h j hj
  | start hpc hc =>
    unfold Task.start
    split <;> intro j hj <;> cases hj
  | enter hpc hc =>
    unfold Task.enter Task.admitted
    split
    · intro j hj
      cases hj
    · split
      · intro j hj
        cases hj
      · exact hcall _ _
  | retry k hpc hc => exact hcall _ _
  | handled w r hpc hc => exact hflush _ _ _
  | cancelHandled hpc hc => exact hflush _ _ _
  | flushed i exit hpc hc => exact hflush _ _ _
  | returns k hpc hc => exact hflush _ _ _
  | raises k err hpc hc =>
    unfold Task.caught
    split
    · rename_i hretry
      split
      · intro j hj
        cases hj
        exact retries_lt hretry
      · exact hcall _ _
    · intro j hj
      cases hj
  | expire k hpc hc => exact fun j hj => h j hj
  | expireBackoff k hpc hc => exact hinterrupt _
  | interrupted k hpc hc => exact hinterrupt _
  | thrown w k hpc hc => exact fun j hj => h j hj
  | handlerCut w ev r hpc hc => exact hflush _ _ _
  | finished hpc hc => exact fun j hj => by cases hj
  | dropped w hpc hc => exact fun j hj => by cases hj
  | woken w k hpc hc => exact fun j hj => by cases hj
  | flushCut w i exit hpc hc => exact fun j hj => by cases hj
  | finishCut w hpc hc => exact fun j hj => by cases hj

end

/-! ### The cost of a run -/

/-- A node the loop has still to reach: its task, and what starting and collecting it
takes. -/
def nodeCost (node : PlanNode) : Nat := 3 * node.retry.maximum + 12

/-- The nodes from index `k` on. -/
def costFrom (plan : FetchPlan) (k : Nat) : Nat := ((plan.nodes.drop k).map nodeCost).sum

/-- The branch's result is still to be taken. -/
def Branch.uncollected (br : Branch) : Nat := if br.result.isNone then 1 else 0

def Branch.cost (br : Branch) : Nat := br.task.cost + br.uncollected

/-- A bound on the steps the executor has still to take. -/
def State.cost (plan : FetchPlan) (s : State) : Nat :=
  match s.phase with
  | .looping => costFrom plan s.locals.nodeIndex + 1
  | .single t => costFrom plan (s.locals.nodeIndex + 1) + t.cost + 2
  | .batch b => costFrom plan (s.locals.nodeIndex + b.branches.length) + (b.branches.map Branch.cost).sum +
      (if b.cancelling then 0 else b.branches.length + 1) + 2
  | .returned _ => 0
  | .raised _ => 0

/-- An adapter's own work. -/
def Action.isWork : Action → Bool
  | .node (.op _) => true
  | .branch _ (.op _) => true
  | _ => false

/-- A step of the executor, or the end of an adapter's work. -/
def Action.isOwn : Action → Bool
  | .tick _ => false
  | a => !a.isWork

theorem costFrom_cons {plan : FetchPlan} {k : Nat} {node : PlanNode} (h : plan.nodes[k]? = some node) :
    costFrom plan k = nodeCost node + costFrom plan (k + 1) := by
  obtain ⟨hlt, heq⟩ := List.getElem?_eq_some_iff.mp h
  simp only [costFrom, List.drop_eq_getElem_cons hlt, heq, List.map_cons, List.sum_cons]

theorem costFrom_append {plan : FetchPlan} {k : Nat} {batch : List PlanNode} (h : batch <+: plan.nodes.drop k) :
    costFrom plan k = (batch.map nodeCost).sum + costFrom plan (k + batch.length) := by
  obtain ⟨rest, hrest⟩ := h
  have hdrop : plan.nodes.drop (k + batch.length) = rest := by
    rw [← List.drop_drop, ← hrest, List.drop_left]
  simp only [costFrom, hdrop, ← hrest, List.map_append, List.sum_append]

/-- Fresh branches cost three less than their nodes each. -/
theorem start_cost {ctx : ExecutionContext} {nodes : List PlanNode} {contexts : List ExecutionContext}
    (hc : parallelContexts ctx nodes.length = some contexts) :
    ((Batch.start ctx nodes contexts).branches.map Branch.cost).sum + 3 * nodes.length =
      (nodes.map nodeCost).sum := by
  have hmap : (Batch.start ctx nodes contexts).branches.map Branch.cost =
      nodes.map fun node => 3 * node.retry.maximum + 9 := by
    refine List.ext_getElem? fun i => ?_
    rw [List.getElem?_map, start_branches hc, List.getElem?_map, Option.map_map]
    congr 1
    funext node
    simp [Branch.cost, Branch.uncollected, Task.cost, Task.stepsLeft, Task.debt]
  rw [hmap]
  clear hc hmap
  induction nodes with
  | nil => rfl
  | cons node rest ih =>
    simp only [List.map_cons, List.sum_cons, List.length_cons, nodeCost] at ih ⊢
    omega

theorem finish_cost (plan : FetchPlan) (s : State) : (s.finish plan).cost plan = 0 := by
  unfold State.cost State.finish
  simp only
  split <;> rename_i heq <;> first | rfl | (split at heq <;> cases heq)

theorem turn_cost {plan : FetchPlan} {s s' : State} (hphase : s.phase = .looping) (h : s.turn plan = some s')
    (hat : ∀ node, plan.nodes[s.locals.nodeIndex]? = some node → s.locals.stopped = false →
      ready s.locals.completed node = true → (s.locals.context.accepted && isFallback node) = false →
      AtNode plan s.locals node) : s'.cost plan + 1 ≤ s.cost plan := by
  have hold : s.cost plan = costFrom plan s.locals.nodeIndex + 1 := by simp [State.cost, hphase]
  unfold State.turn at h
  simp only at h
  split at h
  · cases h
    rw [finish_cost]
    omega
  rename_i node hnode
  have hcons := costFrom_cons hnode
  split at h
  · cases h
    rw [finish_cost]
    omega
  rename_i hstop
  split at h
  · cases h
    have hnew : State.cost plan {s with locals := s.locals.skipDependencies node} =
        costFrom plan (s.locals.nodeIndex + 1) + 1 := by simp [State.cost, hphase, Locals.skipDependencies]
    rw [hnew, hold, hcons, nodeCost]
    omega
  rename_i hready
  split at h
  · cases h
    have hnew : State.cost plan {s with locals := s.locals.skipFallback node} =
        costFrom plan (s.locals.nodeIndex + 1) + 1 := by simp [State.cost, hphase, Locals.skipFallback]
    rw [hnew, hold, hcons, nodeCost]
    omega
  rename_i hwanted
  have hatNode : AtNode plan s.locals node := hat node hnode (by simpa using hstop) (by simpa using hready)
    (by simpa using hwanted)
  split at h
  · rename_i hmany
    obtain ⟨contexts, hc, h⟩ := Option.bind_eq_some_iff.mp h
    cases h
    let b := Batch.start s.locals.context (s.locals.batchAt plan node) contexts
    have hlen : b.branches.length = (s.locals.batchAt plan node).length := (start_of hatNode hmany hc).length_eq
    have hbranches : (b.branches.map Branch.cost).sum + 3 * (s.locals.batchAt plan node).length =
        ((s.locals.batchAt plan node).map nodeCost).sum := start_cost hc
    have hprefix := costFrom_append (batchAt_leads hatNode)
    have htwo : 1 < (s.locals.batchAt plan node).length := hmany
    show costFrom plan (s.locals.nodeIndex + b.branches.length) + (b.branches.map Branch.cost).sum +
      (b.branches.length + 1) + 2 + 1 ≤ _
    rw [hold, hlen, hprefix]
    omega
  · cases h
    show costFrom plan (s.locals.nodeIndex + 1) + (0 + (3 * node.retry.maximum + 8)) + 2 + 1 ≤ _
    rw [hold, hcons, nodeCost]
    omega

/-- A batch that collects takes a result off some branch, or gives up waiting. -/
theorem collect_cost {b b' : Batch} (h : b.collect = some b') :
    b'.branches.length = b.branches.length ∧
    (b'.branches.map Branch.cost).sum + (if b'.cancelling then 0 else b'.branches.length + 1) + 1 ≤
      (b.branches.map Branch.cost).sum + (if b.cancelling then 0 else b.branches.length + 1) := by
  have hcollect : ∀ br : Branch, br.collect.cost ≤ br.cost := by
    intro br
    show br.task.cost + br.collect.uncollected ≤ br.task.cost + br.uncollected
    cases hr : br.result <;> simp [Branch.uncollected, Branch.collect, hr]
    split <;> omega
  obtain ⟨hwaiting, harrived, ⟨rfl, -⟩ | ⟨-, reason, rfl⟩⟩ := collect_cases h
  · refine ⟨List.length_map _, ?_⟩
    obtain ⟨br, hbr, hnew⟩ := List.any_eq_true.mp harrived
    have hlt : br.collect.cost < br.cost := by
      rw [Branch.arrived, Bool.and_eq_true] at hnew
      have hsome : br.collect.result.isNone = false := by
        obtain ⟨r, hr⟩ := Option.isSome_iff_exists.mp hnew.2
        have hold : br.result = none := by simpa using hnew.1
        simp [Branch.collect, hold, hr]
      show br.task.cost + br.collect.uncollected < br.task.cost + br.uncollected
      simp [Branch.uncollected, hsome, hnew.1]
    have hsum : (b.branches.map (Branch.cost ∘ Branch.collect)).sum < (b.branches.map Branch.cost).sum :=
      List.sum_lt_sum _ _ (fun br _ => hcollect br) ⟨br, hbr, hlt⟩
    simp only [hwaiting, List.length_map, List.map_map]
    omega
  · refine ⟨List.length_map _, ?_⟩
    have hsettle : ∀ br ∈ b.branches, (Branch.cost ∘ Branch.settle reason) br ≤ br.cost + 1 := by
      intro br _
      have hle := hcollect br
      rcases settle_cases reason br with ⟨-, heq⟩ | ⟨-, heq⟩ <;> rw [Function.comp_apply, heq]
      · omega
      · have hcancel : (br.task.cancel reason).cost ≤ br.task.cost + 1 := by
          show 1 + br.task.stepsLeft ≤ br.task.debt + br.task.stepsLeft + 1
          omega
        change br.task.cost + br.collect.uncollected ≤ br.cost at hle
        show (br.task.cancel reason).cost + br.collect.uncollected ≤ _
        omega
    have hsum := Lib.Lists.sum_map_le_add_length _ _ hsettle
    simp only [hwaiting, List.length_map, List.map_map]
    simp only [Bool.false_eq_true, if_false, if_true]
    omega

/-- Nothing is asked of the surroundings. -/
def Anything : Discipline where
  task _ _ _ := True
  cancel _ := True

theorem pausesToRetry_carries (e : Engine) (plan : FetchPlan) :
    Carries e plan Anything (fun _ => True) (fun _ t => t.PausesToRetry) where
  single l node _ _ := fun k hk => by cases hk
  branch l first i node _ _ _ _ := fun k hk => by cases hk
  move ctx t ev t' elapsed id hI _ hmove := move_pausesToRetry hmove hI
  cancel ctx t reason hI _ _ := hI
  skipDependencies _ _ _ _ _ _ := trivial
  skipFallback _ _ _ _ _ _ _ _ _ := trivial
  resume _ _ _ _ _ _ _ := trivial
  join _ _ _ _ _ _ _ := trivial

theorem task_cost {e : Engine} {plan : FetchPlan} {elapsed : ℚ} {id : Nat} {t t' : Task} {ev : TaskEvent}
    (h : t.step e plan elapsed id ev = some t') (hpause : t.PausesToRetry) :
    (∃ o, ev = .op o ∧ t'.cost ≤ t.cost + 1) ∨ ((∀ o, ev ≠ .op o) ∧ t'.cost < t.cost) := by
  have hmove := Task.step_move h
  cases ev with
  | op o =>
    cases hmove with
    | op k o hpc => exact .inl ⟨o, rfl, op_cost k o hpc⟩
  | _ => exact .inr ⟨by simp, move_cost hmove hpause (by simp)⟩

/-- **One step**: the executor's own steps lower the cost, an adapter's work raises it
by at most one, and time does nothing. -/
theorem step_cost {e : Engine} {plan : FetchPlan} {s s' : State} {a : Action}
    (hs : Inv plan (fun _ => True) (fun _ t => t.PausesToRetry) s) (h : s.step e plan a = some s') :
    s'.cost plan + (if a.isOwn then 1 else 0) ≤ s.cost plan + (if a.isWork then 1 else 0) := by
  have hp := hs.phase
  cases a with
  | tick d =>
    simp only [State.step] at h
    split at h
    · cases h
      exact le_refl _
    · cases h
  | advance =>
    simp only [State.step] at h
    split at h
    · rename_i hphase
      exact turn_cost hphase h fun node h₁ h₂ h₃ h₄ => ⟨h₁, h₂, h₃, h₄⟩
    · rename_i t hphase
      obtain ⟨r, -, rfl⟩ := Option.map_eq_some_iff.mp h
      show costFrom plan (s.locals.nodeIndex + 1) + 1 + 1 ≤ s.cost plan
      simp only [State.cost, hphase]
      omega
    · cases h
  | node ev =>
    simp only [State.step] at h
    split at h
    · rename_i t hphase
      obtain ⟨t', ht, rfl⟩ := Option.map_eq_some_iff.mp h
      rw [hphase] at hp
      have hold : s.cost plan = costFrom plan (s.locals.nodeIndex + 1) + t.cost + 2 := by simp [State.cost, hphase]
      show costFrom plan (s.locals.nodeIndex + 1) + t'.cost + 2 + _ ≤ _
      rw [hold]
      rcases task_cost ht hp.2 with ⟨o, rfl, hle⟩ | ⟨hne, hlt⟩
      · show _ + 0 ≤ _ + 1
        omega
      · have hown : (Action.node ev).isOwn = true := by
          cases ev <;> first | rfl | exact absurd rfl (hne _)
        rw [hown, if_pos rfl]
        omega
    · cases h
  | branch i ev =>
    simp only [State.step] at h
    split at h
    · rename_i b hphase
      obtain ⟨br, hbr, h⟩ := Option.bind_eq_some_iff.mp h
      obtain ⟨t', ht, h⟩ := Option.bind_eq_some_iff.mp h
      cases h
      rw [hphase] at hp
      obtain ⟨first, -, hI⟩ := hp
      have hsum := Lib.Lists.sum_map_set Branch.cost hbr {br with task := t'}
      have hdiff : Branch.cost {br with task := t'} + br.task.cost = br.cost + t'.cost := by
        show t'.cost + br.uncollected + br.task.cost = br.task.cost + br.uncollected + t'.cost
        omega
      simp only [State.cost, hphase, List.length_set]
      rcases task_cost ht (hI i br hbr) with ⟨o, rfl, hle⟩ | ⟨hne, hlt⟩
      · show _ + 0 ≤ _ + 1
        omega
      · have hown : (Action.branch i ev).isOwn = true := by
          cases ev <;> first | rfl | exact absurd rfl (hne _)
        rw [hown, if_pos rfl]
        omega
    · cases h
  | collect =>
    simp only [State.step] at h
    split at h
    · rename_i b hphase
      obtain ⟨b', hb', rfl⟩ := Option.map_eq_some_iff.mp h
      obtain ⟨hlen, hcost⟩ := collect_cost hb'
      have hold : s.cost plan = costFrom plan (s.locals.nodeIndex + b.branches.length) +
          (b.branches.map Branch.cost).sum + (if b.cancelling then 0 else b.branches.length + 1) + 2 := by
        simp [State.cost, hphase]
      show costFrom plan (s.locals.nodeIndex + b'.branches.length) + (b'.branches.map Branch.cost).sum +
        (if b'.cancelling then 0 else b'.branches.length + 1) + 2 + 1 ≤ s.cost plan + 0
      rw [hold, hlen]
      rw [hlen] at hcost
      omega
    · cases h
  | join =>
    simp only [State.step] at h
    split at h
    · rename_i b hphase
      split at h
      · cases h
        show costFrom plan (s.locals.nodeIndex + b.branches.length) + 1 + 1 ≤ s.cost plan + 0
        simp only [State.cost, hphase]
        omega
      · cases h
    · cases h

/-! ### A run that is not over can go on -/

/-- On the way out with a `CancelledError`. -/
def Pc.unwinding : Pc → Bool
  | .cancelHandling => true
  | .flushing _ .raising => true
  | .cancelled => true
  | _ => false

/-- Nobody has cancelled the task. -/
structure Task.Uncancelled (t : Task) : Prop where
  notRequested : t.cancelRequested = false
  notDelivered : t.cancelDelivered = false
  notUnwinding : t.pc.unwinding = false

/-- A requested cancellation finds the task where it can be thrown. -/
def Task.Throwable (t : Task) : Prop := t.cancelRequested = true → t.deliver.isSome = true

section
variable {e : Engine} {plan : FetchPlan} {elapsed : ℚ} {id : Nat} {t t' : Task} {ev : TaskEvent}

theorem flushFrom_uncancelled (i : Nat) (exit : Exit) (hne : exit ≠ .raising) (hr : t.cancelRequested = false)
    (hd : t.cancelDelivered = false) : (t.flushFrom i exit).Uncancelled := by
  unfold Task.flushFrom
  split
  · cases exit <;> first | exact ⟨hr, hd, rfl⟩ | exact absurd rfl hne
  · cases exit <;> first | exact ⟨hr, hd, rfl⟩ | exact absurd rfl hne

theorem call_uncancelled (k : Nat) (hr : t.cancelRequested = false) (hd : t.cancelDelivered = false) :
    (t.call e k).Uncancelled := by
  unfold Task.call
  split <;> exact ⟨hr, hd, rfl⟩

theorem move_uncancelled (hmove : Task.Move e plan elapsed id t ev t') (h : t.Uncancelled) : t'.Uncancelled := by
  obtain ⟨hr, hd, hu⟩ := h
  have hinterrupt : (t.interrupt e).Uncancelled := by
    rw [Task.interrupt, if_neg (by simp [hd])]
    exact ⟨hr, hd, rfl⟩
  cases hmove with
  | op k o hpc => exact ⟨hr, hd, hu⟩
  | start hpc hc =>
    unfold Task.start
    split <;> exact ⟨hr, hd, rfl⟩
  | enter hpc hc =>
    unfold Task.enter Task.admitted
    split
    · exact ⟨hr, hd, rfl⟩
    · split
      · exact ⟨hr, hd, rfl⟩
      · exact call_uncancelled _ hr hd
  | retry k hpc hc => exact call_uncancelled _ hr hd
  | handled w r hpc hc => exact flushFrom_uncancelled _ _ (by simp) hr hd
  | cancelHandled hpc hc =>
    rw [hpc] at hu
    cases hu
  | flushed i exit hpc hc =>
    refine flushFrom_uncancelled _ _ ?_ hr hd
    rintro rfl
    rw [hpc] at hu
    cases hu
  | finished hpc hc => exact ⟨hr, hd, rfl⟩
  | returns k hpc hc => exact flushFrom_uncancelled _ _ (by simp) hr hd
  | raises k err hpc hc =>
    unfold Task.caught
    split
    · split
      · exact ⟨hr, hd, rfl⟩
      · exact call_uncancelled _ hr hd
    · exact ⟨hr, hd, rfl⟩
  | expire k hpc hc => exact ⟨hr, hd, hu⟩
  | expireBackoff k hpc hc => exact hinterrupt
  | interrupted k hpc hc => exact hinterrupt
  | dropped w hpc hc => simp [hr] at hc
  | thrown w k hpc hc => simp [hr] at hc
  | woken w k hpc hc => simp [hr] at hc
  | handlerCut w ev r hpc hc => simp [hr] at hc
  | flushCut w i exit hpc hc => simp [hr] at hc
  | finishCut w hpc hc => simp [hr] at hc

/-- Until it is thrown, a cancellation stays where the adapter is at work. -/
theorem move_throwable (hmove : Task.Move e plan elapsed id t ev t') : t'.Throwable := by
  intro hreq
  have hbefore := hmove.follows.requested hreq
  cases hmove with
  | op k o hpc => simp [Task.deliver, hpc]
  | dropped w hpc hc => cases hreq
  | thrown w k hpc hc => cases hreq
  | woken w k hpc hc => cases hreq
  | handlerCut w ev r hpc hc =>
    cases (Task.flushFrom_follows (t := {t with cancelRequested := false}) _ _).requested hreq
  | flushCut w i exit hpc hc => cases hreq
  | finishCut w hpc hc => cases hreq
  -- the other steps are those of a task nobody has cancelled
  | _ => simp_all

theorem Task.Uncancelled.throwable_cancel (h : t.Uncancelled) (hpending : t.result? = none) (reason : String) :
    (t.cancel reason).Throwable := by
  intro _
  have hu := h.notUnwinding
  have hpc : (t.cancel reason).pc = t.pc := rfl
  unfold Task.deliver
  simp only [hpc]
  unfold Task.result? at hpending
  split <;> simp_all [Pc.unwinding]

/-- A task that has not ended has a step to take. -/
theorem task_enabled (e : Engine) (plan : FetchPlan) (elapsed : ℚ) (id : Nat) (ht : t.Throwable) (hended : t.ended = false) :
    ∃ ev t', (∀ o, ev ≠ .op o) ∧ t.step e plan elapsed id ev = some t' := by
  cases hc : t.cancelRequested with
  | true =>
    obtain ⟨t', ht'⟩ := Option.isSome_iff_exists.mp (ht hc)
    refine ⟨.deliver false, t', by simp, ?_⟩
    unfold Task.step
    rw [hc]
    exact ht'
  | false =>
    cases hpc : t.pc with
    | calling k => exact ⟨.returns, _, by simp, by simp [Task.step, hc, hpc]; rfl⟩
    | done r => simp [Task.ended, hpc] at hended
    | cancelled => simp [Task.ended, hpc] at hended
    | _ => exact ⟨.resume, _, by simp, by simp [Task.step, hc, hpc]; rfl⟩

end

/-- Tasks are cancelled by a batch that has a winner or a stop, and by nobody else. -/
def Phase.Steady : Phase → Prop
  | .single t => t.Uncancelled
  | .batch b => (∀ br ∈ b.branches, br.task.Throwable) ∧
      (b.cancelling = false → ∀ br ∈ b.branches, br.task.Uncancelled)
  | _ => True

theorem fresh_uncancelled (node : PlanNode) (ctx : ExecutionContext) :
    Task.Uncancelled {node, context := ctx} := ⟨rfl, rfl, rfl⟩

theorem start_uncancelled {ctx : ExecutionContext} {nodes : List PlanNode} {contexts : List ExecutionContext}
    {br : Branch} (h : br ∈ (Batch.start ctx nodes contexts).branches) : br.task.Uncancelled := by
  simp only [Batch.start, List.mem_map] at h
  obtain ⟨p, -, rfl⟩ := h
  exact fresh_uncancelled _ _

theorem Task.Uncancelled.throwable {t : Task} (h : t.Uncancelled) : t.Throwable := by
  intro hreq
  rw [h.notRequested] at hreq
  cases hreq

/-- A task nobody cancelled ends with a result. -/
theorem Task.Uncancelled.result_of_ended {t : Task} (h : t.Uncancelled) (hended : t.ended = true) :
    t.result?.isSome = true := by
  have hu := h.notUnwinding
  unfold Task.ended at hended
  split at hended
  · rename_i hpc
    simp [Task.result?, hpc]
  · rename_i hpc
    rw [hpc] at hu
    cases hu
  · cases hended

theorem turn_steady {plan : FetchPlan} {s s' : State} (hphase : s.phase = .looping) (h : s.turn plan = some s') :
    s'.phase.Steady := by
  have hfinish : (s.finish plan).phase.Steady := by
    show Phase.Steady (if _ then _ else _)
    split <;> trivial
  unfold State.turn at h
  simp only at h
  split at h
  · cases h
    exact hfinish
  split at h
  · cases h
    exact hfinish
  split at h
  · cases h
    rw [hphase]
    trivial
  split at h
  · cases h
    rw [hphase]
    trivial
  split at h
  · obtain ⟨contexts, -, h⟩ := Option.bind_eq_some_iff.mp h
    cases h
    exact ⟨fun br hbr => (start_uncancelled hbr).throwable, fun _ br hbr => start_uncancelled hbr⟩
  · cases h
    exact fresh_uncancelled _ _

theorem collect_steady {plan : FetchPlan} {l : Locals} {first : PlanNode} {b b' : Batch} (hof : b.Of plan l first)
    (hs : (Phase.batch b).Steady) (h : b.collect = some b') : (Phase.batch b').Steady := by
  obtain ⟨hwaiting, -, ⟨rfl, -⟩ | ⟨-, reason, rfl⟩⟩ := collect_cases h
  · refine ⟨?_, fun _ => ?_⟩ <;> intro br hbr <;> obtain ⟨br, hmem, rfl⟩ := List.mem_map.mp hbr
    · exact hs.1 br hmem
    · exact hs.2 hwaiting br hmem
  · refine ⟨?_, fun hcancelling => by cases hcancelling⟩
    intro br hbr
    obtain ⟨br, hmem, rfl⟩ := List.mem_map.mp hbr
    rcases settle_cases reason br with ⟨-, heq⟩ | ⟨hnone, heq⟩ <;> rw [heq]
    · exact hs.1 br hmem
    · have hpending := (collect_result (hof.results br hmem)).symm.trans hnone
      exact (hs.2 hwaiting br hmem).throwable_cancel hpending reason

theorem step_steady {e : Engine} {plan : FetchPlan} {L : Locals → Prop} {I : ExecutionContext → Task → Prop}
    {s s' : State} {a : Action} (hinv : Inv plan L I s) (hs : s.phase.Steady) (h : s.step e plan a = some s') :
    s'.phase.Steady := by
  cases a with
  | tick d =>
    simp only [State.step] at h
    split at h
    · cases h
      exact hs
    · cases h
  | advance =>
    simp only [State.step] at h
    split at h
    · rename_i hphase
      exact turn_steady hphase h
    · obtain ⟨r, -, rfl⟩ := Option.map_eq_some_iff.mp h
      trivial
    · cases h
  | node ev =>
    simp only [State.step] at h
    split at h
    · rename_i t hphase
      obtain ⟨t', ht, rfl⟩ := Option.map_eq_some_iff.mp h
      rw [hphase] at hs
      exact move_uncancelled (Task.step_move ht) hs
    · cases h
  | branch i ev =>
    simp only [State.step] at h
    split at h
    · rename_i b hphase
      obtain ⟨br, hbr, h⟩ := Option.bind_eq_some_iff.mp h
      obtain ⟨t', ht, h⟩ := Option.bind_eq_some_iff.mp h
      cases h
      rw [hphase] at hs
      have hmove := Task.step_move ht
      refine ⟨fun x hx => ?_, fun hwaiting x hx => ?_⟩
      · rcases Lib.Lists.mem_set_cases hx with rfl | hold
        · exact move_throwable hmove
        · exact hs.1 x (List.mem_of_mem_eraseIdx hold)
      · rcases Lib.Lists.mem_set_cases hx with rfl | hold
        · exact move_uncancelled hmove (hs.2 hwaiting br (List.mem_of_getElem? hbr))
        · exact hs.2 hwaiting x (List.mem_of_mem_eraseIdx hold)
    · cases h
  | collect =>
    simp only [State.step] at h
    split at h
    · rename_i b hphase
      obtain ⟨b', hb', rfl⟩ := Option.map_eq_some_iff.mp h
      have hp := hinv.phase
      rw [hphase] at hs hp
      obtain ⟨first, hof, -⟩ := hp
      exact collect_steady hof hs hb'
    · cases h
  | join =>
    simp only [State.step] at h
    split at h
    · split at h
      · cases h
        trivial
      · cases h
    · cases h

/-- The loop always has a next turn. -/
theorem turn_isSome (plan : FetchPlan) (s : State) : ∃ s', s.turn plan = some s' := by
  unfold State.turn
  simp only
  split
  · exact ⟨_, rfl⟩
  split
  · exact ⟨_, rfl⟩
  split
  · exact ⟨_, rfl⟩
  split
  · exact ⟨_, rfl⟩
  split
  · rename_i hmany
    have hpos := Nat.zero_lt_of_lt hmany
    simp [parallelContexts, partition_eq _ hpos]
  · exact ⟨_, rfl⟩

theorem collect_isSome {b : Batch} (hwaiting : b.cancelling = false) (harrived : b.branches.any Branch.arrived = true) :
    b.collect.isSome = true := by
  unfold Batch.collect
  rw [hwaiting, harrived]
  simp only [Bool.not_true, Bool.or_false, Bool.false_eq_true, if_false]
  split <;> rfl

theorem isOwn_branch {i : Nat} {ev : TaskEvent} (h : ∀ o, ev ≠ .op o) : (Action.branch i ev).isOwn = true := by
  cases ev <;> first | rfl | exact absurd rfl (h _)

theorem isOwn_node {ev : TaskEvent} (h : ∀ o, ev ≠ .op o) : (Action.node ev).isOwn = true := by
  cases ev <;> first | rfl | exact absurd rfl (h _)

/-- The run has come to its end. -/
def Phase.over : Phase → Bool
  | .returned _ => true
  | .raised _ => true
  | _ => false

/-- **Progress**: until it is over, a run has a step of its own to take. -/
theorem can_go_on {e : Engine} {plan : FetchPlan} {L : Locals → Prop} {I : ExecutionContext → Task → Prop}
    {s : State} (hinv : Inv plan L I s) (hs : s.phase.Steady) (hover : s.phase.over = false) :
    ∃ a s', a.isOwn = true ∧ s.step e plan a = some s' := by
  have hp := hinv.phase
  cases hphase : s.phase with
  | looping =>
    obtain ⟨s', hs'⟩ := turn_isSome plan s
    exact ⟨.advance, s', rfl, by simpa [State.step, hphase] using hs'⟩
  | single t =>
    rw [hphase] at hs
    cases hended : t.ended with
    | true =>
      obtain ⟨r, hr⟩ := Option.isSome_iff_exists.mp (hs.result_of_ended hended)
      exact ⟨.advance, _, rfl, by simp [State.step, hphase, hr]; rfl⟩
    | false =>
      obtain ⟨ev, t', hne, ht⟩ := task_enabled e plan s.elapsed s.ledger.length hs.throwable hended
      exact ⟨.node ev, _, isOwn_node hne, by simp [State.step, hphase, ht]; rfl⟩
  | batch b =>
    rw [hphase] at hs hp
    obtain ⟨first, hof, -⟩ := hp
    cases hfin : b.finished with
    | true => exact ⟨.join, _, rfl, by simp [State.step, hphase, hfin]; rfl⟩
    | false =>
      simp only [Batch.finished, List.all_eq_false, Bool.or_eq_true, Bool.and_eq_true, not_or, not_and] at hfin
      obtain ⟨br, hmem, hresult, hrunning⟩ := hfin
      by_cases harrived : b.cancelling = false ∧ br.task.result?.isSome
      · have hwaits : b.collect.isSome := by
          refine collect_isSome harrived.1 (List.any_eq_true.mpr ⟨br, hmem, ?_⟩)
          simpa [Branch.arrived, harrived.2] using hresult
        obtain ⟨b', hb'⟩ := Option.isSome_iff_exists.mp hwaits
        exact ⟨.collect, _, rfl, by simp [State.step, hphase, hb']; rfl⟩
      · have hended : br.task.ended = false := by
          cases hcancelling : b.cancelling with
          | true => simpa using hrunning hcancelling
          | false =>
            cases hended : br.task.ended with
            | false => rfl
            | true => exact absurd ⟨hcancelling, (hs.2 hcancelling br hmem).result_of_ended hended⟩ harrived
        obtain ⟨i, hi⟩ := List.mem_iff_getElem?.mp hmem
        obtain ⟨ev, t', hne, ht⟩ := task_enabled e plan s.elapsed s.ledger.length (hs.1 br hmem) hended
        exact ⟨.branch i ev, _, isOwn_branch hne, by simp [State.step, hphase, hi, ht]; rfl⟩
  | returned r =>
    rw [hphase] at hover
    cases hover
  | raised fields =>
    rw [hphase] at hover
    cases hover

/-! ### Every run -/

section
variable {e : Engine} {plan : FetchPlan} {actions : List Action} {s : State}

omit e plan actions s in
theorem anything_rule (s : State) (a : Action) : Anything.rule s a := by
  cases a <;> simp [Discipline.rule, Anything]

theorem anything_obeyed (s : State) (actions : List Action) : (machine e plan).Obeys Anything.rule s actions :=
  (Lib.Machine.obeys_trivial s actions).mono fun s a _ => anything_rule s a

/-- **The bound**: how many steps of its own a run has taken. -/
theorem own_steps_bounded (hrun : (machine e plan).run (.initial plan) actions = some s) :
    actions.countP Action.isOwn + s.cost plan ≤ (State.initial plan).cost plan + actions.countP Action.isWork := by
  have hC := pausesToRetry_carries e plan
  have hstart : Inv plan (fun _ => True) (fun _ t => t.PausesToRetry) (State.initial plan) :=
    ⟨le_refl _, trivial, trivial⟩
  refine Lib.Machine.run_count (R := Anything.rule) (I := Inv plan (fun _ => True) fun _ t => t.PausesToRetry)
    (State.cost plan) Action.isOwn Action.isWork ?_ ?_ hstart (anything_obeyed _ _) hrun
  · exact fun s a s' hs hrule h => step_inv hC hs hrule h
  · exact fun s a s' hs _ h => step_cost hs h

/-- A run that is not over can go on. -/
theorem run_goes_on (hrun : (machine e plan).run (.initial plan) actions = some s) (hover : s.phase.over = false) :
    ∃ a s', a.isOwn = true ∧ s.step e plan a = some s' := by
  have hC := pausesToRetry_carries e plan
  have hstart : Inv plan (fun _ => True) (fun _ t => t.PausesToRetry) (State.initial plan) ∧
      (State.initial plan).phase.Steady := ⟨⟨le_refl _, trivial, trivial⟩, trivial⟩
  have hboth : Inv plan (fun _ => True) (fun _ t => t.PausesToRetry) s ∧ s.phase.Steady := by
    refine Lib.Machine.run_invariant (R := Anything.rule)
      (I := fun s => Inv plan (fun _ => True) (fun _ t => t.PausesToRetry) s ∧ s.phase.Steady) ?_
      hstart (anything_obeyed _ _) hrun
    intro s a s' hs hrule h
    exact ⟨step_inv hC hs.1 hrule h, step_steady hs.1 hs.2 h⟩
  exact can_go_on hboth.1 hboth.2 hover

end

end Fetech.Executor
