import Fetech.Models
import Fetech.Lib.Runs

/-! The event ledger and its subscribers (`fetech/ledger.py`).

A call of `append` or `update_run` is suspended twice: before its transaction commits,
and between the commit and the notification of the subscribers, which is one step with
its return. A subscriber's stream moves between its own awaits and yields. Every order of
these steps, for any number of runs, calls and subscribers, is a list of `Action`s. A
committed row is seen by every later read. -/
namespace Fetech

inductive RunState where
  | queued | planning | running | finished
  deriving DecidableEq, Repr

/-- A row of `fetch_runs`; `budget` is what can be read back of the request's. -/
structure RunRow where
  state : RunState := .queued
  result : Option FetchResult := none
  budget : ResourceBudget := {}

/-- Run ids are UUIDs. -/
abbrev RunId := Nat

end Fetech

namespace Fetech.Ledger
open Lib

/-- A row of `provenance_events`. -/
structure Event where
  eventId : Nat
  runId : RunId
  eventType : String
  actor : String
  payload : List (String × Detail) := []
  deriving DecidableEq

/-- `_sanitize_payload` on the payload of an event and on a result; it removes more where
the run is authenticated. -/
structure Sanitizer where
  payload : Bool → List (String × Detail) → List (String × Detail)
  result : Bool → FetchResult → FetchResult

/-! ### Calls -/

/-- Where a call of `append` or `update_run` is. -/
inductive CallPc where
  | committing
  /-- Committed; the subscribers are not yet told. -/
  | notifying
  | returned
  | raised
  deriving DecidableEq, Repr

structure AppendCall where
  event : Event
  pc : CallPc := .committing

structure UpdateCall where
  runId : RunId
  state : RunState
  result : Option FetchResult := none
  pc : CallPc := .committing

/-- `update_run(run_id, FINISHED)`. -/
def UpdateCall.finishes (u : UpdateCall) (runId : RunId) : Bool := u.runId == runId && u.state == .finished

/-! ### Streams -/

/-- Where a stream is suspended. -/
inductive StreamPc where
  /-- Waiting for the events written so far. -/
  | reading
  /-- These of them are still to be yielded. -/
  | replaying (rest : List Event)
  /-- Waiting for the state of the run. -/
  | checking
  /-- The run was finished: whatever is queued is yielded. -/
  | draining
  /-- The run was not finished: `await queue.get()`. -/
  | waiting
  | ended
  /-- `KeyError`: there is no such run. -/
  | raised
  deriving DecidableEq

/-- A call of `stream`: its queue, in which `none` is the end marker, and what it has
yielded. -/
structure Stream where
  runId : RunId
  pc : StreamPc := .reading
  queue : List (Option Event) := []
  seen : List Nat := []
  received : List Event := []

namespace Stream
variable (st : Stream)

/-- The generator has not run its `finally` block. -/
def isOpen : Bool :=
  match st.pc with
  | .ended => false
  | .raised => false
  | _ => true

/-- An event is yielded and remembered. -/
def yield (e : Event) : Stream := {st with seen := e.eventId :: st.seen, received := st.received ++ [e]}

/-- An item of the queue: the end marker ends the stream, an event seen before is skipped. -/
def take (rest : List (Option Event)) : Option Event → Stream
  | none => {st with pc := .ended, queue := rest}
  | some e => if st.seen.contains e.eventId then {st with queue := rest} else {st with queue := rest}.yield e

/-- The stream goes on to its next await or yield; `none` where it has to wait, or has
ended. -/
def advance (events : List Event) (runs : Dict RunId RunRow) : Option Stream :=
  match st.pc with
  | .reading => some {st with pc := .replaying (events.filter (·.runId == st.runId))}
  | .replaying (e :: rest) => some ({st with pc := .replaying rest}.yield e)
  | .replaying [] => some {st with pc := .checking}
  | .checking =>
    match runs.get? st.runId with
    | none => some {st with pc := .raised}
    | some row => some {st with pc := if row.state = .finished then .draining else .waiting}
  | .draining =>
    match st.queue with
    | [] => some {st with pc := .ended}
    | item :: rest => some (st.take rest item)
  | .waiting =>
    match st.queue with
    | [] => none
    | item :: rest => some (st.take rest item)
  | .ended => none
  | .raised => none

end Stream

/-! ### The ledger -/

structure State where
  events : List Event := []
  runs : Dict RunId RunRow := ∅
  authenticatedRuns : List RunId := []
  /-- `_subscribers`: the queues of a run, by the number of their stream. -/
  subscribers : Dict RunId (List Nat) := ∅
  appends : List AppendCall := []
  updates : List UpdateCall := []
  streams : List Stream := []

inductive Action where
  | createRun (runId : RunId) (authenticated : Bool)
  | append (e : Event)
  | commitAppend (i : Nat)
  | notifyAppend (i : Nat)
  | updateRun (runId : RunId) (state : RunState) (result : Option FetchResult)
  | commitUpdate (i : Nat)
  | notifyUpdate (i : Nat)
  | subscribe (runId : RunId)
  | advance (i : Nat)

namespace State
variable (s : State)

/-- `self._subscribers.get(run_id, set())`. -/
def queuesOf (runId : RunId) : List Nat := s.subscribers.getD runId []

/-- `queue.put_nowait(item)` for every subscriber of the run. -/
def put (runId : RunId) (item : Option Event) : List Stream :=
  s.streams.mapIdx fun i st => if i ∈ s.queuesOf runId then {st with queue := st.queue ++ [item]} else st

/-- The `finally` block of a stream: its queue leaves the set, an empty set goes. -/
def unsubscribe (i : Nat) (runId : RunId) : Dict RunId (List Nat) :=
  match s.subscribers.get? runId with
  | none => s.subscribers
  | some queues =>
    let rest := queues.filter (· ≠ i)
    if rest.isEmpty then s.subscribers.erase runId else s.subscribers.set runId rest

/-- The transaction of an `append`: event ids are unique. -/
def commitAppend (i : Nat) (c : AppendCall) : State :=
  if s.events.any (·.eventId == c.event.eventId) then {s with appends := s.appends.set i {c with pc := .raised}}
  else {s with events := s.events ++ [c.event], appends := s.appends.set i {c with pc := .notifying}}

/-- The transaction of an `update_run`; a result is written only if there is one. -/
def commitUpdate (z : Sanitizer) (i : Nat) (u : UpdateCall) : State :=
  match s.runs.get? u.runId with
  | none => {s with updates := s.updates.set i {u with pc := .raised}}
  | some row => {s with
      runs := s.runs.set u.runId {row with
        state := u.state
        result := (u.result.map (z.result (s.authenticatedRuns.contains u.runId))).or row.result}
      updates := s.updates.set i {u with pc := .notifying}}

/-- `update_run` after its transaction. -/
def notifyUpdate (i : Nat) (u : UpdateCall) : State :=
  {s with
    streams := if u.state = .finished then s.put u.runId none else s.streams
    updates := s.updates.set i {u with pc := .returned}}

/-- A stream after its step; when it is over its queue is no longer served. -/
def setStream (i : Nat) (st : Stream) : State :=
  {s with
    streams := s.streams.set i st
    subscribers := if st.isOpen then s.subscribers else s.unsubscribe i st.runId}

/-- A run enters the ledger; its id is new. -/
def createRun (runId : RunId) (authenticated : Bool) : State :=
  {s with
    runs := s.runs.set runId {}
    authenticatedRuns := if authenticated then runId :: s.authenticatedRuns else s.authenticatedRuns}

/-- `append` is called: the event as it will be stored and shown. -/
def sanitized (z : Sanitizer) (e : Event) : Event :=
  {e with payload := z.payload (s.authenticatedRuns.contains e.runId) e.payload}

def step (z : Sanitizer) (s : State) : Action → Option State
  | .createRun runId authenticated =>
    if (s.runs.get? runId).isSome then none else some (s.createRun runId authenticated)
  | .append e => some {s with appends := s.appends ++ [{event := s.sanitized z e}]}
  | .commitAppend i =>
    match s.appends[i]? with
    | some c => if c.pc = .committing then some (s.commitAppend i c) else none
    | none => none
  | .notifyAppend i =>
    match s.appends[i]? with
    | some c =>
      if c.pc = .notifying then
        some {s with streams := s.put c.event.runId (some c.event), appends := s.appends.set i {c with pc := .returned}}
      else none
    | none => none
  | .updateRun runId state result => some {s with updates := s.updates ++ [{runId, state, result}]}
  | .commitUpdate i =>
    match s.updates[i]? with
    | some u => if u.pc = .committing then some (s.commitUpdate z i u) else none
    | none => none
  | .notifyUpdate i =>
    match s.updates[i]? with
    | some u => if u.pc = .notifying then some (s.notifyUpdate i u) else none
    | none => none
  | .subscribe runId =>
    some {s with
      streams := s.streams ++ [{runId}]
      subscribers := s.subscribers.set runId (s.queuesOf runId ++ [s.streams.length])}
  | .advance i =>
    match s.streams[i]? with
    | some st => (st.advance s.events s.runs).map (s.setStream i)
    | none => none

end State

/-- The ledger of a process, with everything that calls it. -/
def machine (z : Sanitizer) : Machine State Action where
  step := State.step z

end Fetech.Ledger
