import Mathlib.Order.Lattice
import Mathlib.Order.MinMax
import Fetech.Lib.Dict
import Fetech.Lib.Runs

/-! The shared network scheduler (`fetech/scheduling.py`).

A `slot` call joins a queue of waiters, each with a future of its own; `_pump`
admits waiters inside whichever step happens to run it, by setting their futures;
an admitted waiter holds its capacity from that moment, before its task has run
again. So a waiter can be cancelled after its admission and before it resumes, and
what its handler then does depends on the state of the future it finds.

Time is any ordered type with an addition: nothing here asks more of the clock's
readings than that they can be compared. -/
namespace Fetech.Scheduling
open Lib (Dict)

/-- The future a waiter awaits. -/
inductive Future where
  | pending
  | result
  | cancelled
  deriving DecidableEq, Repr

/-- Where a `slot` call is: awaiting its future, inside the guarded body, or over. -/
inductive Stage where
  | waiting
  | holding
  | ended
  deriving DecidableEq, Repr

/-- One `slot` call: its host, the event loop its task runs on, its future, and
whether a cancellation came after the future was set (the task's `_must_cancel`). -/
structure Request where
  host : String
  loop : Nat
  future : Future := .pending
  stage : Stage := .waiting
  mustCancel : Bool := false
  deriving DecidableEq, Repr

/-- Capacity is the request's: set free only when the request has ended. -/
def Request.admitted (r : Request) : Bool := r.future == .result && r.stage != .ended

/-- A `_Waiter`: the request it belongs to stands for its identity. -/
structure Waiter where
  id : Nat
  host : String
  deriving DecidableEq, Repr

/-- What the constructor accepts. -/
structure Limits (T : Type) [Zero T] [LE T] where
  globalConcurrency : Nat
  perHostConcurrency : Nat
  perHostMinInterval : T
  hostHistoryLimit : Nat
  global_pos : 0 < globalConcurrency
  perHost_pos : 0 < perHostConcurrency
  interval_nonneg : 0 ≤ perHostMinInterval
  history_pos : 0 < hostHistoryLimit

/-- What `_release` raises. -/
inductive ReleaseError where
  | underflow
  | spansLoops
  deriving DecidableEq, Repr

structure State (T : Type) where
  activeGlobal : Nat := 0
  activeByHost : Dict String Nat := ∅
  lastStartedAt : Dict String T := ∅
  waiters : List Waiter := []
  loop : Option Nat := none
  /-- When the armed wake timer fires. -/
  wakeHandle : Option T := none
  requests : List Request := []
  fault : Option ReleaseError := none

section Scheduler
variable {T : Type} [LinearOrder T] [Add T] [Zero T] (L : Limits T)

def futureOf (s : State T) (w : Waiter) : Future :=
  ((s.requests[w.id]?).map Request.future).getD .cancelled

def discardCancelledWaiters (s : State T) : State T :=
  {s with waiters := s.waiters.filter fun w => futureOf s w != .cancelled}

def discardWaiter (id : Nat) (s : State T) : State T :=
  {s with waiters := s.waiters.filter fun w => w.id != id}

def pruneHostHistory (now : T) (s : State T) : State T :=
  if L.perHostMinInterval = 0 then {s with lastStartedAt := ∅}
  else {s with lastStartedAt :=
    s.lastStartedAt.dropWhile fun e => !decide (now < e.2 + L.perHostMinInterval)}

/-- The instant before which pacing, or a full history of paced hosts, keeps a
waiter out; `none` when neither does. -/
def pacedUntil (s : State T) (now : T) (w : Waiter) : Option T :=
  match s.lastStartedAt.get? w.host with
  | some started =>
    if now < started + L.perHostMinInterval then some (started + L.perHostMinInterval) else none
  | none =>
    if 0 < L.perHostMinInterval ∧ L.hostHistoryLimit ≤ s.lastStartedAt.size then
      s.lastStartedAt.values.head?.map (· + L.perHostMinInterval)
    else none

def earlier (wakeAt : Option T) (t : T) : T :=
  match wakeAt with
  | none => t
  | some u => min u t

def nextEligibleFrom (s : State T) (now : T) : Nat → Option T → List Waiter → Option Nat × Option T
  | _, wakeAt, [] => (none, wakeAt)
  | index, wakeAt, w :: rest =>
    if L.perHostConcurrency ≤ s.activeByHost.getD w.host 0 then
      nextEligibleFrom s now (index + 1) wakeAt rest
    else
      match pacedUntil L s now w with
      | some t => nextEligibleFrom s now (index + 1) (some (earlier wakeAt t)) rest
      | none => (some index, wakeAt)

def nextEligibleWaiter (s : State T) (now : T) : Option Nat × Option T :=
  nextEligibleFrom L s now 0 none s.waiters

def setFuture (id : Nat) (f : Future) (s : State T) : State T :=
  {s with requests := s.requests.modify id fun r => {r with future := f}}

/-- Capacity for a host, its start recorded when starts are paced. -/
def occupy (now : T) (host : String) (s : State T) : State T :=
  {s with
    activeGlobal := s.activeGlobal + 1
    activeByHost := s.activeByHost.set host (s.activeByHost.getD host 0 + 1)
    lastStartedAt := if 0 < L.perHostMinInterval
      then (s.lastStartedAt.set host now).moveToEnd host else s.lastStartedAt}

/-- One turn of the pump: the waiter leaves the queue, capacity is taken in its
name, its future is set. -/
def grant (now : T) (index : Nat) (w : Waiter) (s : State T) : State T :=
  setFuture w.id .result (occupy L now w.host {s with waiters := s.waiters.eraseIdx index})

/-- The loop of `_pump`. Every turn takes a waiter out of the queue, so a turn per
waiter is enough; the clock is read once a turn. -/
def pumpLoop (clock : Nat → T) : Nat → Nat → State T → State T
  | 0, _, s => s
  | fuel + 1, turn, s =>
    if s.activeGlobal < L.globalConcurrency then
      match s.waiters with
      | [] => s
      | _ :: _ =>
        let s := pruneHostHistory L (clock turn) s
        match nextEligibleWaiter L s (clock turn) with
        | (none, wakeAt) => {s with wakeHandle := wakeAt}
        | (some index, _) =>
          match s.waiters[index]? with
          | some w => pumpLoop clock fuel (turn + 1) (grant L (clock turn) index w s)
          | none => s
    else s

def pump (clock : Nat → T) (s : State T) : State T :=
  let s := discardCancelledWaiters {s with wakeHandle := none}
  pumpLoop L clock s.waiters.length 0 s

/-- `none` where the code raises: the scheduler is in use on another loop. -/
def eventLoop (loop : Nat) (s : State T) : Option (State T) :=
  match s.loop with
  | none => some {s with loop := some loop}
  | some l =>
    if l = loop then some s
    else if s.activeGlobal ≠ 0 ∨ s.waiters ≠ [] then none
    else some {s with wakeHandle := none, lastStartedAt := ∅, loop := some loop}

def vacate (host : String) (s : State T) : State T :=
  {s with
    activeGlobal := s.activeGlobal - 1
    activeByHost := if s.activeByHost.getD host 0 = 1 then s.activeByHost.erase host
      else s.activeByHost.set host (s.activeByHost.getD host 0 - 1)}

def release (clock : Nat → T) (host : String) (loop : Nat) (s : State T) :
    Except ReleaseError (State T) :=
  if s.activeGlobal = 0 ∨ s.activeByHost.getD host 0 = 0 then .error .underflow
  else
    match eventLoop loop (vacate host s) with
    | none => .error .spansLoops
    | some s => .ok (pump L clock s)

/-! ### Steps -/

/-- What can happen next. `cancel` is a task cancellation or the expiry of the
call's own deadline: both reach the waiter as a cancellation of its task. -/
inductive Action (T : Type) where
  | request (host : String) (loop : Nat) (deadline : T) (clock : Nat → T)
  | resume (id : Nat) (clock : Nat → T)
  | cancel (id : Nat)
  | release (id : Nat) (clock : Nat → T)
  | wake (clock : Nat → T)

def setStage (id : Nat) (stage : Stage) (s : State T) : State T :=
  {s with requests := s.requests.modify id fun r => {r with stage := stage}}

/-- The caller of `_release` is over either way; what it raised is kept. -/
def endReleasing (clock : Nat → T) (id : Nat) (r : Request) (s : State T) : State T :=
  match release L clock r.host r.loop (setStage id .ended s) with
  | .ok s => s
  | .error e => {setStage id .ended s with fault := some e}

/-- `slot` up to the first suspension of `_acquire`. A future the pump sets at once
is awaited without suspending, so the call goes straight into its body. -/
def join (clock : Nat → T) (host : String) (loop : Nat) (s : State T) : State T :=
  match eventLoop loop s with
  | none => {s with requests := s.requests ++ [{host, loop, stage := .ended}]}
  | some s =>
    let id := s.requests.length
    let s := pump L clock {s with
      requests := s.requests ++ [{host, loop}]
      waiters := s.waiters ++ [⟨id, host⟩]}
    if futureOf s ⟨id, host⟩ = .result then setStage id .holding s else s

/-- An awaiting task runs again, its future set or cancelled. The handler of a
cancelled future pumps as its last act: the call is over then. -/
def resume (clock : Nat → T) (id : Nat) (r : Request) (s : State T) : Option (State T) :=
  match r.future with
  | .pending => none
  | .result => if r.mustCancel then some (endReleasing L clock id r s) else some (setStage id .holding s)
  | .cancelled => some (pump L clock (discardWaiter id (setStage id .ended s)))

/-- Cancelling a task that awaits a pending future cancels the future; one whose
future is set already will see the cancellation when it resumes. -/
def cancel (id : Nat) (r : Request) (s : State T) : State T :=
  match r.future with
  | .pending => setFuture id .cancelled s
  | .result => {s with requests := s.requests.modify id fun r => {r with mustCancel := true}}
  | .cancelled => s

def step (s : State T) : Action T → Option (State T)
  | .request host loop deadline clock =>
    if deadline ≤ 0 then some {s with requests := s.requests ++ [{host, loop, stage := .ended}]}
    else some (join L clock host loop s)
  | .resume id clock => do
    let r ← s.requests[id]?
    if r.stage = .waiting then resume L clock id r s else none
  | .cancel id => do
    let r ← s.requests[id]?
    match r.stage with
    | .waiting => some (cancel id r s)
    | .holding => some s
    | .ended => none
  | .release id clock => do
    let r ← s.requests[id]?
    if r.stage = .holding then some (endReleasing L clock id r s) else none
  | .wake clock =>
    match s.wakeHandle with
    | some _ => some (pump L clock {s with wakeHandle := none})
    | none => none

def machine : Lib.Machine (State T) (Action T) := ⟨step L⟩

end Scheduler
end Fetech.Scheduling
