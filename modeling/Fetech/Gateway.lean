import Fetech.Ledger

/-! The gateway's coroutines and the rows they write (`fetech/gateway.py`).

The calls of `submit`, `initialize` and `close` and the tasks that execute runs are
coroutines: a step takes one of them from one await to the next. A ledger write is
suspended before and after its commit, and a cancellation or an error that leaves it may
find it committed or not. Every order of the steps is a list of `Action`s. -/
namespace Fetech.Gateway
open Lib

/-! ### Results the gateway writes itself -/

/-- The diagnostic of a run that was finalised without a result of its own. -/
structure Failure where
  code : String
  message : String
  deriving DecidableEq

def runInterrupted : Failure :=
  ⟨"run_interrupted", "run was interrupted before completion and was finalized during daemon startup"⟩
def runCancelled : Failure := ⟨"run_cancelled", "fetch execution was cancelled"⟩
def internalError : Failure := ⟨"internal_error", "fetch execution failed at an internal boundary"⟩
def planningFailed : Failure := ⟨"planning_failed", "request could not produce a valid execution plan"⟩

def Failure.result (f : Failure) (eventId : Nat) (remainingBudget : ResourceBudget) : FetchResult where
  status := .failed
  resources := []
  artifacts := []
  attempts := []
  capabilityOutcomes := []
  policyDecisions := []
  diagnostics := [{code := f.code, message := f.message}]
  provenanceEventIds := [eventId]
  remainingBudget
  crawlReport := none

/-! ### Coroutines -/

/-- A run that recovery found unfinished. -/
structure Interrupted where
  runId : RunId
  budget : ResourceBudget

/-- Where `initialize` is suspended. -/
inductive InitPc where
  | openingLedger
  /-- In `unfinished_runs`. -/
  | scanning
  | appending (run : Interrupted) (eventId : Nat) (rest : List Interrupted)
  | updating (run : Interrupted) (eventId : Nat) (rest : List Interrupted)
  /-- In `update_run`, after its commit. -/
  | updated (rest : List Interrupted)
  | loadingArtifacts
  | returned
  | raised

/-- Where `submit` is suspended. -/
inductive SubmitPc where
  | initializing (pc : InitPc)
  | creating
  | planning
  | appending (eventId : Nat)
  | updating (eventId : Nat)
  | updated
  | recordingPlan
  | over

/-- Where `_execute_and_project` is suspended. -/
inductive TaskPc where
  | created
  /-- In `update_run(RUNNING)`. -/
  | starting
  | started
  | executing
  /-- In `update_run(FINISHED, result)`. -/
  | finishing (result : FetchResult)
  | finished
  /-- `_record_terminal_failure`. -/
  | appending (f : Failure) (eventId : Nat)
  | updating (f : Failure) (eventId : Nat)
  | updated (f : Failure)
  | projecting
  | over

inductive ClosePc where
  /-- Waiting for these tasks to end. -/
  | gathering (tasks : List Nat)
  | closingLedger
  | over

/-- A call of the gateway or the task of a run. `init` stands for every call that
only initialises and reads. -/
inductive Coroutine where
  | init (pc : InitPc)
  | submit (runId : RunId) (budget : ResourceBudget) (pc : SubmitPc)
  | task (runId : RunId) (budget : ResourceBudget) (pc : TaskPc) (cancelRequested : Bool := false)
  | close (pc : ClosePc)

/-- What resumes a coroutine. -/
inductive Event where
  | returns
  /-- The run has been executed with this result. -/
  | executed (result : FetchResult)
  /-- An exception; a write under way may have happened. -/
  | raises (written : Bool)
  /-- `CancelledError`; a write under way may have happened. -/
  | cancelled (written : Bool)

structure State where
  rows : Dict RunId RunRow := ∅
  initialized : Bool := false
  coroutines : List Coroutine := []
  nextEventId : Nat := 0

namespace State
variable (s : State)

/-- The transaction of `update_run`. -/
def updateRun (runId : RunId) (state : RunState) (result : Option FetchResult := none) : Option State :=
  (s.rows.get? runId).map fun row =>
    {s with rows := s.rows.set runId {row with state, result := result.or row.result}}

/-- `unfinished_runs`. -/
def unfinishedRuns : List Interrupted :=
  (s.rows.entries.filter fun e => e.2.state ≠ .finished).map fun e => ⟨e.1, e.2.budget⟩

/-- The state with one more event made. -/
def withEvent : State := {s with nextEventId := s.nextEventId + 1}

end State

/-! ### `initialize` -/

/-- On to the next run to recover. -/
def InitPc.recover (s : State) : List Interrupted → State × InitPc
  | [] => (s, .loadingArtifacts)
  | run :: rest => (s.withEvent, .appending run s.nextEventId rest)

/-- The recovery's `update_run`. -/
def InitPc.finalize (s : State) (run : Interrupted) (eventId : Nat) : Option State :=
  s.updateRun run.runId .finished (some (runInterrupted.result eventId run.budget))

def InitPc.step (s : State) : InitPc → Event → Option (State × InitPc)
  | .openingLedger, .returns => some (s, .scanning)
  | .scanning, .returns => some (recover s s.unfinishedRuns)
  | .appending run eventId rest, .returns => some (s, .updating run eventId rest)
  | .updating run eventId rest, .returns => (finalize s run eventId).map (·, .updated rest)
  | .updated rest, .returns => some (recover s rest)
  | .loadingArtifacts, .returns => some ({s with initialized := true}, .returned)
  | .updating run eventId _, .raises true => (finalize s run eventId).map (·, .raised)
  | .updating run eventId _, .cancelled true => (finalize s run eventId).map (·, .raised)
  | .returned, _ => none
  | .raised, _ => none
  | _, .raises _ => some (s, .raised)
  | _, .cancelled _ => some (s, .raised)
  | _, _ => none

/-! ### `submit` -/

/-- `create_run`: run ids are unique. -/
def createRun (s : State) (runId : RunId) (budget : ResourceBudget) : Option State :=
  if (s.rows.get? runId).isSome then none else some {s with rows := s.rows.set runId {budget}}

/-- What `submit` does once its initialisation has moved. -/
def SubmitPc.afterInit : State × InitPc → State × SubmitPc
  | (s, .returned) => (s, .creating)
  | (s, .raised) => (s, .over)
  | (s, pc) => (s, .initializing pc)

/-- The `update_run` of `_record_planning_failure`. -/
def SubmitPc.fail (s : State) (runId : RunId) (budget : ResourceBudget) (eventId : Nat) : Option State :=
  s.updateRun runId .finished (some (planningFailed.result eventId budget))

/-- One step of `submit`, with the task it starts. -/
def SubmitPc.step (s : State) (runId : RunId) (budget : ResourceBudget) :
    SubmitPc → Event → Option (State × SubmitPc × List Coroutine)
  | .initializing pc, ev => (pc.step s ev).map fun r => ((afterInit r).1, (afterInit r).2, [])
  | .creating, .returns => (createRun s runId budget).map (·, .planning, [])
  | .creating, .raises true => (createRun s runId budget).map (·, .over, [])
  | .creating, .cancelled true => (createRun s runId budget).map (·, .over, [])
  | .planning, .returns => some (s, .recordingPlan, [])
  | .planning, .raises _ => some (s.withEvent, .appending s.nextEventId, [])
  | .appending eventId, .returns => some (s, .updating eventId, [])
  | .updating eventId, .returns => (fail s runId budget eventId).map (·, .updated, [])
  | .updating eventId, .raises true => (fail s runId budget eventId).map (·, .over, [])
  | .updating eventId, .cancelled true => (fail s runId budget eventId).map (·, .over, [])
  | .updated, .returns => some (s, .over, [])
  | .recordingPlan, .returns => some (s, .over, [.task runId budget .created])
  | .over, _ => none
  | _, .raises _ => some (s, .over, [])
  | _, .cancelled _ => some (s, .over, [])
  | _, _ => none

/-! ### The task of a run -/

/-- `_record_terminal_failure` begins. -/
def TaskPc.failWith (s : State) (f : Failure) : State × TaskPc := (s.withEvent, .appending f s.nextEventId)

/-- Its `update_run`. -/
def TaskPc.recordFailure (s : State) (runId : RunId) (budget : ResourceBudget) (f : Failure) (eventId : Nat) :
    Option State :=
  s.updateRun runId .finished (some (f.result eventId budget))

/-- The `except` clauses of `_execute_and_project`. -/
def TaskPc.caught (s : State) : Event → Option (State × TaskPc)
  | .raises _ => some (failWith s internalError)
  | .cancelled _ => some (failWith s runCancelled)
  | _ => none

def Event.interrupts : Event → Bool
  | .raises _ => true
  | .cancelled _ => true
  | _ => false

/-- The write under way was committed before the coroutine was resumed. -/
def Event.written : Event → Bool
  | .returns => true
  | .executed _ => false
  | .raises written => written
  | .cancelled written => written

/-- After a step that may have committed its write: on in order, or into a handler. -/
def TaskPc.afterWrite (s : State) (ev : Event) (committed : Option State) (next : TaskPc) : Option (State × TaskPc) :=
  if ev.written then committed.bind fun s' => if ev.interrupts then caught s' ev else some (s', next)
  else caught s ev

def TaskPc.step (s : State) (runId : RunId) (budget : ResourceBudget) : TaskPc → Event → Option (State × TaskPc)
  | .created, .returns => some (s, .starting)
  | .created, .cancelled _ => some (s, .over)
  | .starting, ev => afterWrite s ev (s.updateRun runId .running) .started
  | .started, .returns => some (s, .executing)
  | .executing, .executed result => some (s, .finishing result)
  | .finishing result, ev => afterWrite s ev (s.updateRun runId .finished (some result)) .finished
  | .finished, .returns => some (s, .projecting)
  | .started, ev => caught s ev
  | .executing, ev => caught s ev
  | .finished, ev => caught s ev
  | .appending f eventId, .returns => some (s, .updating f eventId)
  | .updating f eventId, .returns => (recordFailure s runId budget f eventId).map (·, .updated f)
  | .updating f eventId, .raises true => (recordFailure s runId budget f eventId).map (·, .over)
  | .updating f eventId, .cancelled true => (recordFailure s runId budget f eventId).map (·, .over)
  -- The handler of a cancellation raises it again.
  | .updated f, .returns => some (s, if f = runCancelled then .over else .projecting)
  | .projecting, .returns => some (s, .over)
  -- `suppress(Exception)` around the runtime graph.
  | .projecting, .raises _ => some (s, .over)
  | .over, _ => none
  | .created, _ => none
  | _, .raises _ => some (s, .over)
  | _, .cancelled _ => some (s, .over)
  | _, _ => none

/-! ### `close` -/

def Coroutine.isOver : Coroutine → Bool
  | .init .returned => true
  | .init .raised => true
  | .submit _ _ .over => true
  | .task _ _ .over _ => true
  | .close .over => true
  | _ => false

def Coroutine.isLiveTask : Coroutine → Bool
  | .task _ _ .over _ => false
  | .task _ _ _ _ => true
  | _ => false

/-- `task.cancel()`. -/
def Coroutine.cancel : Coroutine → Coroutine
  | .task runId budget pc _ => .task runId budget pc true
  | c => c

def ClosePc.step (s : State) : ClosePc → Event → Option (State × ClosePc)
  | .gathering tasks, .returns =>
    if tasks.all fun i => (s.coroutines[i]?).all Coroutine.isOver then some (s, .closingLedger) else none
  | .closingLedger, .returns => some ({s with initialized := false}, .over)
  | .over, _ => none
  | _, .raises _ => some (s, .over)
  | _, .cancelled _ => some (s, .over)
  | _, _ => none

/-! ### The gateway -/

/-- One step of a coroutine: the state, what becomes of it, and the tasks it starts. A
task whose cancellation was requested is resumed by the `CancelledError`. -/
def Coroutine.step (s : State) : Coroutine → Event → Option (State × Coroutine × List Coroutine)
  | .init pc, ev => (pc.step s ev).map fun r => (r.1, .init r.2, [])
  | .submit runId budget pc, ev => (pc.step s runId budget ev).map fun r => (r.1, .submit runId budget r.2.1, r.2.2)
  | .task runId budget pc cancelRequested, ev =>
    match ev, cancelRequested with
    | .cancelled _, true => (pc.step s runId budget ev).map fun r => (r.1, .task runId budget r.2, [])
    | .cancelled _, false => none
    | _, true => none
    | _, false => (pc.step s runId budget ev).map fun r => (r.1, .task runId budget r.2, [])
  | .close pc, ev => (pc.step s ev).map fun r => (r.1, .close r.2, [])

inductive Action where
  | submit (runId : RunId) (budget : ResourceBudget)
  | init
  | close
  /-- Someone cancels a task. -/
  | cancel (i : Nat)
  | resume (i : Nat) (ev : Event)

/-- A call up to its first await. -/
def InitPc.begin (s : State) : InitPc := if s.initialized then .returned else .openingLedger

def step (s : State) : Action → Option State
  | .submit runId budget =>
    let pc := if s.initialized then .creating else .initializing .openingLedger
    some {s with coroutines := s.coroutines ++ [.submit runId budget pc]}
  | .init => some {s with coroutines := s.coroutines ++ [.init (.begin s)]}
  | .close =>
    let running := (List.range s.coroutines.length).filter fun i => (s.coroutines[i]?).any Coroutine.isLiveTask
    let pc := if running.isEmpty then .closingLedger else .gathering running
    some {s with coroutines := (s.coroutines.map fun c => if c.isLiveTask then c.cancel else c) ++ [.close pc]}
  | .cancel i => some {s with coroutines := s.coroutines.modify i Coroutine.cancel}
  | .resume i ev => do
    let c ← s.coroutines[i]?
    let (s', c', started) ← c.step s ev
    return {s' with coroutines := s'.coroutines.set i c' ++ started}

/-- The gateway of a process. -/
def machine : Machine State Action where
  step := step

end Fetech.Gateway
