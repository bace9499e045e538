import Mathlib.Algebra.BigOperators.Group.Multiset.Basic
import Mathlib.Tactic.Abel
import Fetech.Executor.Progress

/-! Runtime events reach the ledger once each.

An adapter queues an event in its context; the context keeps it for good. What a node has
to write is what was queued since its `attempt.started`, and its `finally` block writes it
from that index on. `outstanding` is what is still to be written: a step that queues an
event adds it there, a step that writes one takes it away, and a task that has ended has
none left, unless the cancellation of its batch was thrown into the writing itself. -/
namespace Fetech.Executor

/-- An event as `_emit` is called with it. -/
abbrev Record := PendingEvent × List Nat

/-- The arguments of the `_emit` that made an entry. -/
def entryRecord (entry : ProvenanceEvent) : Record :=
  (⟨entry.eventType, entry.actor, entry.payload⟩, entry.parentEventIds)

theorem records_emit (ledger : List ProvenanceEvent) (ev : PendingEvent) (parents : List Nat) :
    (emit ledger ev parents).map entryRecord = ledger.map entryRecord ++ [(ev, parents)] := by
  rw [emit, List.map_append]
  rfl

/-- The types of the events the executor writes of its own. -/
def executorEvents : List String :=
  ["plan.started", "run.finished", "attempt.started", "attempt.finished", "attempt.cancelled",
    "attempt.budget_exhausted", "attempt.blocked", "attempt.unavailable", "attempt.auth_expired",
    "attempt.auth_required", "attempt.not_found", "attempt.failed"]

/-- A runtime event with the node that queued it and the id of the node's `attempt.started`. -/
structure Queued where
  node : PlanNode
  eventId : Nat
  event : PendingEvent

def Queued.record (q : Queued) : Record := (q.event, [q.eventId])

namespace Task

/-- What a step queues. -/
def queued (t : Task) : TaskEvent → List Queued
  | .op (.queueEvent ev) => [⟨t.node, t.eventId, ev⟩]
  | _ => []

/-- The events from index `i` on, as they are to be written. -/
def recordsFrom (t : Task) (i : Nat) : List Record := (t.context.pendingEvents.drop i).map (·, [t.eventId])

/-- Where the writing goes on for a task that has still to write. -/
def nextRecord (t : Task) : Option Nat :=
  match t.pc with
  | .calling _ => some t.runtimeEventCount
  | .backoff _ => some t.runtimeEventCount
  | .handling _ _ => some t.runtimeEventCount
  | .cancelHandling => some t.runtimeEventCount
  | .flushing i _ => some i
  | _ => none

/-- What the task has queued and not yet written. -/
def outstanding (t : Task) : List Record := (t.nextRecord.map t.recordsFrom).getD []

theorem outstanding_some {t : Task} {i : Nat} (h : t.nextRecord = some i) : t.outstanding = t.recordsFrom i := by
  rw [outstanding, h]
  rfl

theorem outstanding_none {t : Task} (h : t.nextRecord = none) : t.outstanding = [] := by
  rw [outstanding, h]
  rfl

/-- A cancellation is thrown into the writing of runtime events. -/
def interruptsFlush (t : Task) (ev : TaskEvent) : Bool :=
  match t.pc, ev with
  | .flushing _ _, .deliver _ => true
  | _, _ => false

end Task

/-- No flush is interrupted. -/
def FlushesWhole : Discipline where
  task _ t ev := t.interruptsFlush ev = false
  cancel _ := True

instance (q : ℚ) (t : Task) (ev : TaskEvent) : Decidable (FlushesWhole.task q t ev) :=
  inferInstanceAs (Decidable (_ = false))

instance (t : Task) : Decidable (FlushesWhole.cancel t) := inferInstanceAs (Decidable True)

/-- The tasks under way. -/
def Phase.tasks : Phase → List Task
  | .single t => [t]
  | .batch b => b.branches.map (·.task)
  | _ => []

namespace State

/-- What a step of the run queues. -/
def queued (s : State) : Action → List Queued
  | .node ev => (s.phase.tasks.head?.map (·.queued ev)).getD []
  | .branch i ev => (s.phase.tasks[i]?.map (·.queued ev)).getD []
  | _ => []

def outstanding (s : State) : Multiset Record := (s.phase.tasks.map fun t => (t.outstanding : Multiset Record)).sum

end State

/-- Every runtime event queued in a run, in order. -/
def queueLog (e : Engine) (plan : FetchPlan) (actions : List Action) : List Queued :=
  (machine e plan).log State.queued (.initial plan) actions

/-- The entry at this id is the `attempt.started` of the node. -/
def StartedAt (ledger : List ProvenanceEvent) (id : Nat) (node : PlanNode) : Prop :=
  ∃ entry, ledger[id]? = some entry ∧ entry.eventType = "attempt.started" ∧ entry.actor = node.adapter ∧
    entry.payload = [("capability_id", .text node.capabilityId)]

theorem StartedAt.append {ledger more : List ProvenanceEvent} {id : Nat} {node : PlanNode}
    (h : StartedAt ledger id node) : StartedAt (ledger ++ more) id node := by
  obtain ⟨entry, hentry, hrest⟩ := h
  refine ⟨entry, ?_, hrest⟩
  rw [List.getElem?_append_left (List.getElem?_eq_some_iff.mp hentry).1]
  exact hentry

/-- What a task's locals have to do with the ledger. -/
structure Task.Marked (ledger : List ProvenanceEvent) (t : Task) : Prop where
  count : t.runtimeEventCount ≤ t.context.pendingEvents.length
  writes : ∀ w r, t.pc = .handling w r → w.eventType ∈ executorEvents
  started : t.pc.inAdapter = true → StartedAt ledger t.eventId t.node

/-! ### The steps of a task -/

section
variable {e : Engine} {plan : FetchPlan} {elapsed : ℚ} {id : Nat} {t t' : Task} {ev : TaskEvent}
  {ledger : List ProvenanceEvent}

theorem report_executorEvent (node : PlanNode) (err : AdapterError) : (err.report node).eventType ∈ executorEvents := by
  cases err <;> simp [AdapterError.report, executorEvents]

theorem handledContext_events (err : AdapterError) :
    (t.handledContext e err).pendingEvents = t.context.pendingEvents := by
  unfold Task.handledContext ensureOutcome
  dsimp only
  split <;> rfl

theorem cancelledContext_events : t.cancelledContext.pendingEvents = t.context.pendingEvents := by
  unfold Task.cancelledContext ensureOutcome
  dsimp only
  split <;> rfl

theorem handle_outstanding (err : AdapterError) : (t.handle e err).outstanding = t.recordsFrom t.runtimeEventCount := by
  show ((t.handledContext e err).pendingEvents.drop _).map _ = _
  rw [handledContext_events]
  rfl

theorem handleCancel_outstanding : t.handleCancel.outstanding = t.recordsFrom t.runtimeEventCount := by
  show (t.cancelledContext.pendingEvents.drop _).map _ = _
  rw [cancelledContext_events]
  rfl

theorem interrupt_outstanding : (t.interrupt e).outstanding = t.recordsFrom t.runtimeEventCount := by
  unfold Task.interrupt
  split
  · exact handleCancel_outstanding
  · exact handle_outstanding _

theorem call_outstanding (k : Nat) : (t.call e k).outstanding = t.recordsFrom t.runtimeEventCount := by
  unfold Task.call
  split
  · exact handle_outstanding _
  · rfl

theorem caught_outstanding (k : Nat) (err : AdapterError) :
    (t.caught e k err).outstanding = t.recordsFrom t.runtimeEventCount := by
  unfold Task.caught
  split
  · split
    · rfl
    · exact call_outstanding _
  · exact handle_outstanding _

/-- The `finally` block has to write what is there from its index on. -/
theorem flushFrom_outstanding (i : Nat) (exit : Exit) : (t.flushFrom i exit).outstanding = t.recordsFrom i := by
  unfold Task.flushFrom
  split
  · rfl
  · rename_i hend
    have hnone : t.recordsFrom i = [] := by
      rw [Task.recordsFrom, List.drop_of_length_le (not_lt.mp hend)]
      rfl
    rw [hnone]
    cases exit <;> rfl

theorem admitted_outstanding : (t.admitted e plan elapsed).outstanding = t.recordsFrom t.runtimeEventCount := by
  unfold Task.admitted
  split
  · exact handle_outstanding _
  · split
    · exact handle_outstanding _
    · exact call_outstanding _

theorem enter_outstanding : (t.enter e plan elapsed id).outstanding = [] := by
  rw [Task.enter, admitted_outstanding]
  show (t.context.pendingEvents.drop t.context.pendingEvents.length).map _ = []
  rw [List.drop_length]
  rfl

/-- Outside the flush a step leaves what is outstanding, and adds what it queues. -/
theorem move_outstanding (hmove : Task.Move e plan elapsed id t ev t') (hcount : t.runtimeEventCount ≤ t.context.pendingEvents.length)
    (hflush : ∀ i exit, t.pc ≠ .flushing i exit) :
    t'.outstanding = t.outstanding ++ (t.queued ev).map Queued.record := by
  have hpaused : ∀ {pc}, t.pc = pc → pc.inAdapter = true → t.outstanding = t.recordsFrom t.runtimeEventCount := by
    intro pc hpc hin
    refine Task.outstanding_some ?_
    rw [Task.nextRecord, hpc]
    cases pc <;> first | rfl | cases hin
  cases hmove with
  | op k o hpc =>
    rw [hpaused hpc rfl, Task.outstanding_some (i := t.runtimeEventCount) (by rw [Task.nextRecord, hpc])]
    cases o with
    | queueEvent ev =>
      show ((t.context.pendingEvents ++ [ev]).drop t.runtimeEventCount).map _ = _
      rw [List.drop_append_of_le_length hcount, List.map_append]
      rfl
    | _ => exact (List.append_nil _).symm
  | start hpc hc =>
    rw [Task.outstanding_none (t := t) (by rw [Task.nextRecord, hpc]), Task.start]
    split <;> rfl
  | enter hpc hc =>
    rw [enter_outstanding, Task.outstanding_none (t := t) (by rw [Task.nextRecord, hpc])]
    rfl
  | retry k hpc hc =>
    rw [call_outstanding, hpaused hpc rfl]
    exact (List.append_nil _).symm
  | handled w r hpc hc =>
    rw [Task.flush, flushFrom_outstanding, Task.outstanding_some (t := t) (by rw [Task.nextRecord, hpc])]
    exact (List.append_nil _).symm
  | cancelHandled hpc hc =>
    rw [Task.flush, flushFrom_outstanding, Task.outstanding_some (t := t) (by rw [Task.nextRecord, hpc])]
    exact (List.append_nil _).symm
  | flushed i exit hpc hc => exact absurd hpc (hflush i exit)
  | finished hpc hc =>
    rw [Task.outstanding_none (t := t) (by rw [Task.nextRecord, hpc])]
    rfl
  | returns k hpc hc =>
    rw [Task.flush, flushFrom_outstanding, hpaused hpc rfl]
    exact (List.append_nil _).symm
  | raises k err hpc hc =>
    rw [caught_outstanding, hpaused hpc rfl]
    exact (List.append_nil _).symm
  | expire k hpc hc => exact (List.append_nil _).symm
  | expireBackoff k hpc hc =>
    rw [interrupt_outstanding, hpaused hpc rfl]
    exact (List.append_nil _).symm
  | interrupted k hpc hc =>
    rw [interrupt_outstanding, hpaused hpc rfl]
    exact (List.append_nil _).symm
  | dropped w hpc hc =>
    obtain hpc | hpc := hpc
    · rw [Task.outstanding_none (t := t) (by rw [Task.nextRecord, hpc])]
      rfl
    · rw [Task.outstanding_none (t := t) (by rw [Task.nextRecord, hpc])]
      rfl
  | thrown w k hpc hc => exact (List.append_nil _).symm
  | woken w k hpc hc =>
    rw [handleCancel_outstanding, hpaused hpc rfl]
    exact (List.append_nil _).symm
  | handlerCut w ev r hpc hc =>
    rw [Task.flush, flushFrom_outstanding, Task.outstanding_some (t := t) (by rw [Task.nextRecord, hpc])]
    exact (List.append_nil _).symm
  | flushCut w i exit hpc hc => exact absurd hpc (hflush i exit)
  | finishCut w hpc hc =>
    rw [Task.outstanding_none (t := t) (by rw [Task.nextRecord, hpc])]
    rfl

/-- Outside the flush a task writes the executor's own events. -/
theorem written_own (hmarked : t.Marked ledger) (hflush : ∀ i exit, t.pc ≠ .flushing i exit) :
    ∀ r ∈ t.written ev, r.1.eventType ∈ executorEvents := by
  have hwriting : ∀ r ∈ t.writing, r.1.eventType ∈ executorEvents := by
    intro r hr
    unfold Task.writing at hr
    split at hr
    · cases hr
      exact List.mem_of_elem_eq_true rfl
    · rename_i w _ hpc
      cases hr
      exact hmarked.writes _ _ hpc
    · cases hr
      exact List.mem_of_elem_eq_true rfl
    · rename_i i exit hpc
      exact absurd hpc (hflush i exit)
    · cases hr
      exact List.mem_of_elem_eq_true rfl
    · cases hr
  intro r hr
  unfold Task.written at hr
  split at hr
  · exact hwriting r hr
  · exact hwriting r hr
  · cases hr

/-- What can happen in the flush. -/
theorem move_flushing (hmove : Task.Move e plan elapsed id t ev t') {i : Nat} {exit : Exit}
    (hpc : t.pc = .flushing i exit) :
    (ev = .resume ∧ t' = t.flushFrom (i + 1) exit) ∨ t.interruptsFlush ev = true := by
  cases hmove with
  | flushed i' exit' hpc' hc =>
    rw [hpc] at hpc'
    cases hpc'
    exact .inl ⟨rfl, rfl⟩
  | flushCut w i' exit' hpc' hc => exact .inr (by simp [Task.interruptsFlush, hpc])
  | _ => simp_all

/-- **One step of a task**: what it writes that is not the executor's own was outstanding,
and what it queues is outstanding now. -/
theorem move_accounts (hmove : Task.Move e plan elapsed id t ev t') (hmarked : t.Marked ledger)
    (hwhole : t.interruptsFlush ev = false) : ∃ own : List Record, (∀ r ∈ own, r.1.eventType ∈ executorEvents) ∧
      ((t.written ev).toList : Multiset Record) + t'.outstanding =
        own + (t.outstanding + ((t.queued ev).map Queued.record : List Record)) := by
  by_cases hflush : ∃ i exit, t.pc = .flushing i exit
  · obtain ⟨i, exit, hpc⟩ := hflush
    refine ⟨[], fun r hr => (by cases hr), ?_⟩
    obtain ⟨rfl, rfl⟩ | hcut := move_flushing hmove hpc
    · have hwritten : t.written .resume = (t.context.pendingEvents[i]?).map (·, [t.eventId]) := by
        show t.writing = _
        rw [Task.writing, hpc]
      have hout : t.outstanding = t.recordsFrom i := Task.outstanding_some (by rw [Task.nextRecord, hpc])
      rw [flushFrom_outstanding, hwritten, hout]
      show _ = ((0 : Multiset Record) + (_ + 0))
      rw [zero_add, add_zero, Task.recordsFrom, Task.recordsFrom]
      cases hget : t.context.pendingEvents[i]? with
      | none =>
        rw [List.getElem?_eq_none_iff] at hget
        rw [List.drop_of_length_le hget, List.drop_of_length_le (hget.trans i.le_succ)]
        rfl
      | some pending =>
        obtain ⟨hi, hpending⟩ := List.getElem?_eq_some_iff.mp hget
        rw [List.drop_eq_getElem_cons hi, hpending]
        rfl
    · rw [hcut] at hwhole
      cases hwhole
  · have hflush' : ∀ i exit, t.pc ≠ .flushing i exit := fun i exit hpc => hflush ⟨i, exit, hpc⟩
    refine ⟨(t.written ev).toList, fun r hr => written_own hmarked hflush' r (by simpa using hr), ?_⟩
    rw [move_outstanding hmove hmarked.count hflush', ← Multiset.coe_add]

/-! ### What tasks know of the ledger -/

/-- The locals set at the `attempt.started` stay, and a handler writes an event of the
executor's. -/
structure Task.Continues (t t' : Task) : Prop where
  eventId : t'.eventId = t.eventId
  count : t'.runtimeEventCount = t.runtimeEventCount
  writes : ∀ w r, t'.pc = .handling w r → w.eventType ∈ executorEvents

theorem handle_continues (err : AdapterError) : t.Continues (t.handle e err) where
  eventId := rfl
  count := rfl
  writes := by
    intro w r hpc
    cases hpc
    exact report_executorEvent t.node err

theorem interrupt_continues : t.Continues (t.interrupt e) := by
  unfold Task.interrupt
  split
  · exact ⟨rfl, rfl, fun w r hpc => by cases hpc⟩
  · exact handle_continues _

theorem call_continues (k : Nat) : t.Continues (t.call e k) := by
  unfold Task.call
  split
  · exact handle_continues _
  · exact ⟨rfl, rfl, fun w r hpc => by cases hpc⟩

theorem caught_continues (k : Nat) (err : AdapterError) : t.Continues (t.caught e k err) := by
  unfold Task.caught
  split
  · split
    · exact ⟨rfl, rfl, fun w r hpc => by cases hpc⟩
    · exact call_continues _
  · exact handle_continues _

theorem flushFrom_continues (i : Nat) (exit : Exit) : t.Continues (t.flushFrom i exit) := by
  unfold Task.flushFrom
  split
  · exact ⟨rfl, rfl, fun w r hpc => by cases hpc⟩
  · cases exit <;> exact ⟨rfl, rfl, fun w r hpc => by cases hpc⟩

theorem admitted_continues : t.Continues (t.admitted e plan elapsed) := by
  unfold Task.admitted
  split
  · exact handle_continues _
  · split
    · have h := handle_continues (e := e) (.budgetExhausted "run deadline budget exhausted")
        (t := {t with context.attempts := ensureDeadlineAttemptFailed e t.context t.node t.attemptCount})
      exact ⟨h.eventId, h.count, h.writes⟩
    · exact call_continues _

theorem start_continues : t.Continues (t.start e) := by
  unfold Task.start
  split <;> exact ⟨rfl, rfl, fun w r hpc => by cases hpc⟩

/-- Every step but the one that opens the attempt. -/
theorem move_continues (hmove : Task.Move e plan elapsed id t ev t') (hmarked : t.Marked ledger)
    (hstarting : t.pc ≠ .starting ∨ ev ≠ .resume) : t.Continues t' := by
  cases hmove with
  | op k o hpc => exact ⟨rfl, rfl, hmarked.writes⟩
  | start => exact start_continues
  | enter hpc => exact absurd hpc (hstarting.resolve_right (by simp))
  | retry => exact call_continues _
  | handled => exact flushFrom_continues _ _
  | cancelHandled => exact flushFrom_continues _ _
  | flushed => exact flushFrom_continues _ _
  | finished => exact ⟨rfl, rfl, fun w r hpc => by cases hpc⟩
  | returns =>
    have h := flushFrom_continues (t := {t with fate := .returned}) t.runtimeEventCount .continuing
    exact ⟨h.eventId, h.count, h.writes⟩
  | raises => exact caught_continues _ _
  | expire => exact ⟨rfl, rfl, hmarked.writes⟩
  | expireBackoff => exact interrupt_continues
  | interrupted => exact interrupt_continues
  | dropped => exact ⟨rfl, rfl, fun w r hpc => by cases hpc⟩
  | thrown w k hpc => exact ⟨rfl, rfl, hmarked.writes⟩
  | woken => exact ⟨rfl, rfl, fun w r hpc => by cases hpc⟩
  | handlerCut =>
    have h := flushFrom_continues (t := {t with cancelRequested := false}) t.runtimeEventCount .raising
    exact ⟨h.eventId, h.count, h.writes⟩
  | flushCut => exact ⟨rfl, rfl, fun w r hpc => by cases hpc⟩
  | finishCut => exact ⟨rfl, rfl, fun w r hpc => by cases hpc⟩

/-- The adapter is entered where the attempt is opened. -/
theorem move_inAdapter (hmove : Task.Move e plan elapsed id t ev t') (h : t'.pc.inAdapter = true) :
    t.pc.inAdapter = true ∨ (t.pc = .starting ∧ ev = .resume) := by
  cases hmove with
  | enter hpc => exact .inr ⟨hpc, rfl⟩
  | start hpc =>
    unfold Task.start at h
    split at h <;> cases h
  | handled => exact absurd h (by rw [Task.flush, flushFrom_inAdapter]; exact Bool.false_ne_true)
  | cancelHandled => exact absurd h (by rw [Task.flush, flushFrom_inAdapter]; exact Bool.false_ne_true)
  | flushed => exact absurd h (by rw [flushFrom_inAdapter]; exact Bool.false_ne_true)
  | handlerCut => exact absurd h (by rw [Task.flush, flushFrom_inAdapter]; exact Bool.false_ne_true)
  | finished => cases h
  | dropped => cases h
  | flushCut => cases h
  | finishCut => cases h
  | op k o hpc => exact .inl (by rw [hpc]; rfl)
  | retry k hpc => exact .inl (by rw [hpc]; rfl)
  | returns k hpc => exact .inl (by rw [hpc]; rfl)
  | raises k err hpc => exact .inl (by rw [hpc]; rfl)
  | expire k hpc => exact .inl (by rw [hpc]; rfl)
  | expireBackoff k hpc => exact .inl (by rw [hpc]; rfl)
  | interrupted k hpc => exact .inl (by rw [hpc]; rfl)
  | thrown w k hpc => exact .inl (by rw [hpc]; rfl)
  | woken w k hpc => exact .inl (by rw [hpc]; rfl)

theorem write_records (s : State) (t : Task) (ev : TaskEvent) :
    (s.write t ev).map entryRecord = s.ledger.map entryRecord ++ (t.written ev).toList := by
  unfold State.write
  cases t.written ev with
  | none => exact (List.append_nil _).symm
  | some record => exact records_emit s.ledger record.1 record.2

theorem StartedAt.write {s : State} {node : PlanNode} {n : Nat} (h : StartedAt s.ledger n node) (t : Task)
    (ev : TaskEvent) : StartedAt (s.write t ev) n node := by
  unfold State.write
  split
  · exact h.append
  · exact h

/-- **One step of a task** keeps what it knows of the ledger. -/
theorem move_marked {s : State} (hmove : Task.Move e plan elapsed s.ledger.length t ev t')
    (hmarked : t.Marked s.ledger) : t'.Marked (s.write t ev) := by
  by_cases hopens : t.pc = .starting ∧ ev = .resume
  · obtain ⟨hpc, rfl⟩ := hopens
    cases hmove with
    | enter hpc' hc =>
      have hadmitted : (t.opened s.ledger.length).Continues ((t.opened s.ledger.length).admitted e plan elapsed) :=
        admitted_continues
      have hfollows : t.Follows (t.enter e plan elapsed s.ledger.length) := Task.enter_follows
      have hnode := hfollows.node
      have hgrows := hfollows.grows.events
      refine ⟨?_, hadmitted.writes, fun _ => ?_⟩
      · rw [Task.enter, hadmitted.count]
        exact hgrows.length_le
      · have hwritten : t.written .resume = some (t.nodeEvent "attempt.started", [0]) := by
          show t.writing = _
          rw [Task.writing, hpc]
        rw [State.write, hwritten, Task.enter, hadmitted.eventId, ← Task.enter, hnode]
        refine ⟨_, List.getElem?_concat_length .., rfl, rfl, rfl⟩
    | start hpc' => simp_all
    | retry k hpc' => simp_all
    | handled w r hpc' => simp_all
    | cancelHandled hpc' => simp_all
    | flushed i exit hpc' => simp_all
    | finished hpc' => simp_all
  · have hcontinues := move_continues hmove hmarked (not_and_or.mp hopens)
    refine ⟨?_, hcontinues.writes, fun hin => ?_⟩
    · rw [hcontinues.count]
      exact hmarked.count.trans hmove.follows.grows.events.length_le
    · rw [hcontinues.eventId, hmove.follows.node]
      exact (hmarked.started ((move_inAdapter hmove hin).resolve_right hopens)).write t ev

/-! ### The steps of a run -/

/-- What the ledger and the tasks have of the events queued so far. -/
structure Flushing (queue : List Queued) (s : State) : Prop where
  accounted : ∃ own : List Record, (∀ r ∈ own, r.1.eventType ∈ executorEvents) ∧
    ((s.ledger.map entryRecord : List Record) : Multiset Record) + s.outstanding =
      own + (queue.map Queued.record : List Record)
  started : ∀ q ∈ queue, StartedAt s.ledger q.eventId q.node
  marked : ∀ t ∈ s.phase.tasks, t.Marked s.ledger

theorem flushing_initial (plan : FetchPlan) : Flushing [] (State.initial plan) where
  accounted := ⟨_, fun r hr => by rw [List.mem_singleton.mp hr]; exact List.mem_of_elem_eq_true rfl, rfl⟩
  started := fun q hq => by cases hq
  marked := fun t ht => by cases ht

/-- A step of one task. -/
theorem Flushing.task {queue : List Queued} {s s' : State} (h : Flushing queue s) {i : Nat}
    (ht : s.phase.tasks[i]? = some t) (hmove : Task.Move e plan elapsed s.ledger.length t ev t')
    (hwhole : t.interruptsFlush ev = false) (hledger : s'.ledger = s.write t ev)
    (htasks : s'.phase.tasks = s.phase.tasks.set i t') : Flushing (queue ++ t.queued ev) s' := by
  have hmarked := h.marked t (List.mem_of_getElem? ht)
  refine ⟨?_, ?_, ?_⟩
  · obtain ⟨own, hown, hsum⟩ := h.accounted
    obtain ⟨own', hown', hstep⟩ := move_accounts hmove hmarked hwhole
    refine ⟨own ++ own', ?_, ?_⟩
    · intro r hr
      obtain hr | hr := List.mem_append.mp hr
      · exact hown r hr
      · exact hown' r hr
    · have hset := Lib.Lists.sum_map_set (fun t : Task => (t.outstanding : Multiset Record)) ht t'
      rw [← htasks] at hset
      change s'.outstanding + t.outstanding = s.outstanding + t'.outstanding at hset
      rw [hledger, write_records, List.map_append]
      simp only [← Multiset.coe_add]
      refine add_right_cancel (b := (t.outstanding : Multiset Record)) ?_
      calc (((s.ledger.map entryRecord : List Record) : Multiset Record) + (t.written ev).toList + s'.outstanding) +
            t.outstanding
          = (((s.ledger.map entryRecord : List Record) : Multiset Record) + s.outstanding) +
              ((t.written ev).toList + t'.outstanding) := by rw [add_assoc, hset]; abel
        _ = (own + (queue.map Queued.record : List Record)) +
              (own' + (t.outstanding + ((t.queued ev).map Queued.record : List Record))) := by rw [hsum, hstep]
        _ = _ := by abel
  · intro q hq
    rw [hledger]
    obtain hq | hq := List.mem_append.mp hq
    · exact (h.started q hq).write t ev
    · refine StartedAt.write ?_ t ev
      unfold Task.queued at hq
      split at hq
      · rw [List.mem_singleton.mp hq]
        cases hmove with
        | op k o hpc => exact hmarked.started (by rw [hpc]; rfl)
      · cases hq
  · intro u hu
    rw [htasks] at hu
    rw [hledger]
    obtain hu | rfl := List.mem_or_eq_of_mem_set hu
    · have hold := h.marked u hu
      exact ⟨hold.count, hold.writes, fun hin => (hold.started hin).write t ev⟩
    · exact move_marked hmove hmarked

/-- A step that writes nothing and leaves the tasks what they owe. -/
theorem Flushing.quiet {queue : List Queued} {s s' : State} (h : Flushing queue s) (hledger : s'.ledger = s.ledger)
    (hout : s'.outstanding = s.outstanding) (hmarked : ∀ t ∈ s'.phase.tasks, t.Marked s.ledger) : Flushing queue s' where
  accounted := by rw [hledger, hout]; exact h.accounted
  started := hledger ▸ h.started
  marked := hledger ▸ hmarked

theorem fresh_marked (node : PlanNode) (ctx : ExecutionContext) :
    Task.Marked ledger {node, context := ctx} where
  count := Nat.zero_le _
  writes := fun w r hpc => by cases hpc
  started := fun hin => by cases hin

theorem outstanding_eq_zero {s : State} (h : ∀ t ∈ s.phase.tasks, t.outstanding = []) : s.outstanding = 0 := by
  unfold State.outstanding
  rw [List.sum_eq_zero]
  intro x hx
  obtain ⟨t, ht, rfl⟩ := List.mem_map.mp hx
  show (t.outstanding : Multiset Record) = 0
  rw [h t ht]
  rfl

theorem outstanding_of_ended (h : (∃ r, t.pc = .done r) ∨ t.pc = .cancelled) : t.outstanding = [] := by
  obtain ⟨r, hpc⟩ | hpc := h
  · exact Task.outstanding_none (by rw [Task.nextRecord, hpc])
  · exact Task.outstanding_none (by rw [Task.nextRecord, hpc])

theorem turn_flushing {queue : List Queued} {s s' : State} (h : Flushing queue s) (hphase : s.phase = .looping)
    (hturn : s.turn plan = some s') : Flushing queue s' := by
  have hnone : s.outstanding = 0 := outstanding_eq_zero (by rw [hphase]; exact fun t ht => by cases ht)
  have hfresh : ∀ {s' : State}, s'.ledger = s.ledger →
      (∀ t ∈ s'.phase.tasks, ∃ node ctx, t = {node, context := ctx}) → Flushing queue s' := by
    intro s' hledger hnew
    refine h.quiet hledger ?_ ?_
    · rw [hnone]
      refine outstanding_eq_zero fun t ht => ?_
      obtain ⟨node, ctx, rfl⟩ := hnew t ht
      rfl
    · intro t ht
      obtain ⟨node, ctx, rfl⟩ := hnew t ht
      exact fresh_marked node ctx
  have hfinish : Flushing queue (s.finish plan) := by
    have hover : (s.finish plan).phase.tasks = [] := by
      show Phase.tasks (if _ then _ else _) = []
      split <;> rfl
    obtain ⟨own, hown, hsum⟩ := h.accounted
    have hzero : (s.finish plan).outstanding = 0 := outstanding_eq_zero fun t ht => by rw [hover] at ht; cases ht
    let finished : Record := (⟨"run.finished", "executor",
      [("status", .text (s.locals.result plan s.elapsed s.ledger).status.value)]⟩, [0])
    refine ⟨⟨own ++ [finished], ?_, ?_⟩, fun q hq => (h.started q hq).append, fun t ht => by rw [hover] at ht; cases ht⟩
    · intro r hr
      obtain hr | hr := List.mem_append.mp hr
      · exact hown r hr
      · rw [List.mem_singleton.mp hr]
        exact List.mem_of_elem_eq_true (a := "run.finished") rfl
    · show ((((emit _ _ _).map entryRecord : List Record) : Multiset Record) + _) = _
      rw [records_emit, hzero]
      rw [hnone] at hsum
      simp only [← Multiset.coe_add, add_zero] at hsum ⊢
      rw [hsum, add_right_comm]
  unfold State.turn at hturn
  simp only at hturn
  split at hturn
  · cases hturn
    exact hfinish
  · split at hturn
    · cases hturn
      exact hfinish
    · split at hturn
      · cases hturn
        exact hfresh rfl (by rw [hphase]; exact fun t ht => by cases ht)
      · split at hturn
        · cases hturn
          exact hfresh rfl (by rw [hphase]; exact fun t ht => by cases ht)
        · split at hturn
          · obtain ⟨contexts, hc, hs'⟩ := Option.bind_eq_some_iff.mp hturn
            cases hs'
            refine hfresh rfl fun t ht => ?_
            obtain ⟨br, hbr, rfl⟩ := List.mem_map.mp ht
            obtain ⟨p, -, rfl⟩ := List.mem_map.mp hbr
            exact ⟨p.1, p.2, rfl⟩
          · cases hturn
            refine hfresh rfl fun t ht => ?_
            rw [List.mem_singleton.mp ht]
            exact ⟨_, _, rfl⟩

/-- A branch owes after the collection what it owed before. -/
theorem settle_flushing (ledger : List ProvenanceEvent) (reason : String) (br : Branch) :
    (br.settle reason).task.outstanding = br.task.outstanding ∧
      (br.task.Marked ledger → (br.settle reason).task.Marked ledger) := by
  obtain ⟨-, heq⟩ | ⟨-, heq⟩ := settle_cases reason br
  · rw [heq]
    exact ⟨rfl, id⟩
  · rw [heq]
    exact ⟨rfl, fun h => ⟨h.count, h.writes, h.started⟩⟩

theorem collect_flushing {queue : List Queued} {s : State} {b b' : Batch} (h : Flushing queue s)
    (hphase : s.phase = .batch b) (hb : b.collect = some b') : Flushing queue {s with phase := .batch b'} := by
  have hmarked : ∀ br ∈ b.branches, br.task.Marked s.ledger := fun br hbr =>
    h.marked br.task (by rw [hphase]; exact List.mem_map_of_mem hbr)
  have hbefore : s.outstanding = (b.branches.map fun br => (br.task.outstanding : Multiset Record)).sum := by
    rw [State.outstanding, hphase, Phase.tasks, List.map_map]
    rfl
  obtain ⟨-, -, ⟨rfl, -⟩ | ⟨-, reason, rfl⟩⟩ := collect_cases hb
  · refine h.quiet rfl ?_ fun t ht => ?_
    · rw [hbefore, State.outstanding, Phase.tasks, List.map_map, List.map_map]
      rfl
    · obtain ⟨br', hbr', rfl⟩ := List.mem_map.mp ht
      obtain ⟨br, hbr, rfl⟩ := List.mem_map.mp hbr'
      exact hmarked br hbr
  · refine h.quiet rfl ?_ fun t ht => ?_
    · rw [hbefore, State.outstanding, Phase.tasks, List.map_map, List.map_map]
      refine congrArg _ (List.map_congr_left fun br _ => ?_)
      have hsettled := settle_flushing s.ledger reason br
      show ((br.settle reason).task.outstanding : Multiset Record) = _
      rw [hsettled.1]
    · obtain ⟨br', hbr', rfl⟩ := List.mem_map.mp ht
      obtain ⟨br, hbr, rfl⟩ := List.mem_map.mp hbr'
      exact (settle_flushing _ reason br).2 (hmarked br hbr)

/-- **One step**: what is queued is in the ledger or owed by a task under way. -/
theorem step_flushing {L : Locals → Prop} {I : ExecutionContext → Task → Prop} {queue : List Queued} {s s' : State}
    {a : Action} (hs : Inv plan L I s) (h : Flushing queue s) (hrule : FlushesWhole.rule s a)
    (hstep : s.step e plan a = some s') : Flushing (queue ++ s.queued a) s' := by
  have hp := hs.phase
  have hidle : ∀ {phase}, s.phase = phase → ∀ {l}, (∀ t ∈ phase.tasks, t.outstanding = []) →
      Flushing queue {s with locals := l, phase := .looping} := by
    intro phase hphase l hended
    refine h.quiet rfl ?_ (fun t ht => by cases ht)
    rw [outstanding_eq_zero (s := s) (by rw [hphase]; exact hended)]
    exact outstanding_eq_zero fun t ht => by cases ht
  cases a with
  | tick d =>
    simp only [State.step] at hstep
    rw [show s.queued (.tick d) = [] from rfl, List.append_nil]
    split at hstep
    · cases hstep
      exact h.quiet rfl rfl h.marked
    · cases hstep
  | advance =>
    simp only [State.step] at hstep
    rw [show s.queued .advance = [] from rfl, List.append_nil]
    split at hstep
    · rename_i hphase
      exact turn_flushing h hphase hstep
    · rename_i t hphase
      obtain ⟨r, hr, rfl⟩ := Option.map_eq_some_iff.mp hstep
      refine hidle hphase fun u hu => ?_
      rw [List.mem_singleton.mp hu]
      unfold Task.result? at hr
      split at hr
      · exact outstanding_of_ended (.inl ⟨_, by assumption⟩)
      · cases hr
    · cases hstep
  | node ev =>
    simp only [State.step] at hstep
    split at hstep
    · rename_i t hphase
      obtain ⟨t', ht, rfl⟩ := Option.map_eq_some_iff.mp hstep
      have hqueued : s.queued (.node ev) = t.queued ev := by rw [State.queued, hphase]; rfl
      rw [hqueued]
      exact h.task (i := 0) (by rw [hphase]; rfl) (Task.step_move ht) (hrule t (by rw [hphase]; rfl)) rfl
        (by rw [hphase]; rfl)
    · cases hstep
  | branch i ev =>
    simp only [State.step] at hstep
    split at hstep
    · rename_i b hphase
      obtain ⟨br, hbr, hstep⟩ := Option.bind_eq_some_iff.mp hstep
      obtain ⟨t', ht, hstep⟩ := Option.bind_eq_some_iff.mp hstep
      cases hstep
      have htask : s.phase.tasks[i]? = some br.task := by
        rw [hphase, Phase.tasks, List.getElem?_map, hbr]
        rfl
      have hqueued : s.queued (.branch i ev) = br.task.queued ev := by rw [State.queued, htask]; rfl
      rw [hqueued]
      refine h.task htask (Task.step_move ht) (hrule b (by rw [hphase]; rfl) br hbr) rfl ?_
      rw [hphase]
      exact List.map_set
    · cases hstep
  | collect =>
    simp only [State.step] at hstep
    rw [show s.queued .collect = [] from rfl, List.append_nil]
    split at hstep
    · rename_i b hphase
      obtain ⟨b', hb', rfl⟩ := Option.map_eq_some_iff.mp hstep
      exact collect_flushing h hphase hb'
    · cases hstep
  | join =>
    simp only [State.step] at hstep
    rw [show s.queued .join = [] from rfl, List.append_nil]
    split at hstep
    · rename_i b hphase
      split at hstep
      · rename_i hfinished
        cases hstep
        rw [hphase] at hp
        obtain ⟨first, hof, -⟩ := hp
        refine hidle hphase fun u hu => ?_
        obtain ⟨br, hbr, rfl⟩ := List.mem_map.mp hu
        exact outstanding_of_ended (hof.ended hfinished hbr)
      · cases hstep
    · cases hstep

end

/-! ### Runs -/

theorem run_flushing {e : Engine} {plan : FetchPlan} {actions : List Action} {s : State}
    (hobeys : (machine e plan).Obeys FlushesWhole.rule (.initial plan) actions)
    (hrun : (machine e plan).run (.initial plan) actions = some s) : Flushing (queueLog e plan actions) s := by
  have hstart : Inv plan (fun _ => True) (fun _ t => t.PausesToRetry) (State.initial plan) := ⟨le_refl _, trivial, trivial⟩
  let both := fun (queue : List Queued) (s : State) =>
    Inv plan (fun _ => True) (fun _ t => t.PausesToRetry) s ∧ Flushing queue s
  have hstep : ∀ queue s a s', both queue s → FlushesWhole.rule s a → (machine e plan).step s a = some s' →
      both (queue ++ s.queued a) s' := fun queue s a s' ⟨hs, h⟩ hrule hstep =>
    ⟨step_inv (pausesToRetry_carries e plan) hs (anything_rule s a) hstep, step_flushing hs h hrule hstep⟩
  have hlog := (machine e plan).run_log hstep ⟨hstart, flushing_initial plan⟩ hobeys hrun
  exact hlog.2

/-- **Every runtime event reaches the ledger once, under its node.** In every run that has
come to its end with no flush interrupted, whatever the order in which the branches of its
batches went: the ledger is, order aside, the executor's own events and every event an
adapter queued, as often as it was queued, each with the `attempt.started` of the node
that queued it as its parent. -/
theorem runtime_events_flushed (e : Engine) (plan : FetchPlan) (actions : List Action) (s : State)
    (hobeys : (machine e plan).Obeys FlushesWhole.rule (.initial plan) actions)
    (hrun : (machine e plan).run (.initial plan) actions = some s) (hover : s.phase.over = true) :
    (∃ own : List Record, (∀ r ∈ own, r.1.eventType ∈ executorEvents) ∧
      (s.ledger.map entryRecord).Perm (own ++ (queueLog e plan actions).map Queued.record)) ∧
    ∀ q ∈ queueLog e plan actions, StartedAt s.ledger q.eventId q.node := by
  have h := run_flushing hobeys hrun
  obtain ⟨own, hown, hsum⟩ := h.accounted
  have hzero : s.outstanding = 0 := by
    refine outstanding_eq_zero fun t ht => ?_
    cases hphase : s.phase with
    | returned r => rw [hphase] at ht; cases ht
    | raised fields => rw [hphase] at ht; cases ht
    | looping => rw [hphase] at hover; cases hover
    | single u => rw [hphase] at hover; cases hover
    | batch b => rw [hphase] at hover; cases hover
  rw [hzero, add_zero, Multiset.coe_add, Multiset.coe_eq_coe] at hsum
  exact ⟨⟨own, hown, hsum⟩, h.started⟩

/-- What an extractor reports on its way. -/
def extracted : PendingEvent := ⟨"document.extracted", "documents", [("pages", .int 2)]⟩

/-- Both extractors report the same; the one that comes second in the plan starts first,
and fails. -/
def bothReport : List Action :=
  [.advance, .branch 1 .resume, .branch 1 .resume, .branch 0 .resume, .branch 0 .resume,
    .branch 1 (.op (.queueEvent extracted)), .branch 0 (.op (.queueEvent extracted)), .branch 0 .returns,
    .branch 1 (.raises (.value "ValueError" "not text")), .branch 0 .resume, .branch 1 .resume, .branch 0 .resume,
    .branch 1 .resume, .collect, .join, .advance]

theorem runtime_events_flushed_bothReport : ∃ s, (machine sampleEngine extractorPlan).run (.initial extractorPlan)
      bothReport = some s ∧ (queueLog sampleEngine extractorPlan bothReport).map Queued.record =
      [(extracted, [1]), (extracted, [2])] ∧
    (∃ own : List Record, (∀ r ∈ own, r.1.eventType ∈ executorEvents) ∧
      (s.ledger.map entryRecord).Perm (own ++ [(extracted, [1]), (extracted, [2])])) := by
  have hends : (((machine sampleEngine extractorPlan).run (.initial extractorPlan) bothReport).map (·.phase.over)) =
      some true := by decide +kernel
  obtain ⟨s, hrun, hover⟩ := Option.map_eq_some_iff.mp hends
  have hlog : (queueLog sampleEngine extractorPlan bothReport).map Queued.record =
      [(extracted, [1]), (extracted, [2])] := by decide +kernel
  have h := (runtime_events_flushed sampleEngine extractorPlan bothReport s (by decide +kernel) hrun hover).1
  rw [hlog] at h
  exact ⟨s, hrun, hlog, h⟩

end Fetech.Executor
