import Fetech.Gateway
import Fetech.Lib.Lists

/-! What one step of the gateway does to the rows, and to the runs its coroutines have in
hand.

A run is in hand (`holds`) from its creation until its final row is committed, first with
the call of `submit` and then with its task; it is live (`lives`) until that coroutine is
over; and it is in recovery (`recovers`) from the scan that found it unfinished until it is
finalised. `Move` lists what a step of a coroutine can do in these terms. -/
namespace Fetech.Gateway
open Lib

/-! ### Runs in hand -/

def SubmitPc.holds : SubmitPc → Bool
  | .planning => true
  | .appending _ => true
  | .updating _ => true
  | .recordingPlan => true
  | _ => false

def TaskPc.holds : TaskPc → Bool
  | .finished => false
  | .updated _ => false
  | .projecting => false
  | .over => false
  | _ => true

/-- The runs recovery still has to finalise. -/
def InitPc.worklist : InitPc → List RunId
  | .appending run _ rest => run.runId :: rest.map (·.runId)
  | .updating run _ rest => run.runId :: rest.map (·.runId)
  | .updated rest => rest.map (·.runId)
  | _ => []

namespace Coroutine

/-- The run whose final row this coroutine has still to write. -/
def holds : Coroutine → List RunId
  | .submit runId _ pc => if pc.holds then [runId] else []
  | .task runId _ pc _ => if pc.holds then [runId] else []
  | _ => []

/-- The run whose call or task is under way. -/
def lives : Coroutine → List RunId
  | .submit runId _ .updated => [runId]
  | .submit runId _ pc => if pc.holds then [runId] else []
  | .task _ _ .over _ => []
  | .task runId _ _ _ => [runId]
  | _ => []

def recovers : Coroutine → List RunId
  | .init pc => pc.worklist
  | .submit _ _ (.initializing pc) => pc.worklist
  | _ => []

/-- Suspended in `unfinished_runs`. -/
def scans : Coroutine → Bool
  | .init .scanning => true
  | .submit _ _ (.initializing .scanning) => true
  | _ => false

/-- The same runs in the same hands. -/
structure Same (c c' : Coroutine) : Prop where
  holds : c'.holds = c.holds
  lives : c'.lives = c.lives
  recovers : c'.recovers = c.recovers

/-- No run in hand. -/
structure Idle (c : Coroutine) : Prop where
  holds : c.holds = []
  lives : c.lives = []
  recovers : c.recovers = []

end Coroutine

open Coroutine

/-- The row of a run after `update_run`. -/
def rewritten (row : RunRow) (state : RunState) (result : Option FetchResult) : RunRow :=
  {row with state, result := result.or row.result}

/-- What one step of a coroutine does. -/
inductive Move (s : State) (c : Coroutine) (ev : Event) : Dict RunId RunRow → Coroutine → List Coroutine → Prop
  | same (c' : Coroutine) (hsame : Same c c') : Move s c ev s.rows c' []
  /-- Whatever was in hand is given up. -/
  | drop (c' : Coroutine) (hidle : Idle c') : Move s c ev s.rows c' []
  | create (runId : RunId) (budget : ResourceBudget) (c' : Coroutine) (hidle : Idle c)
      (hfresh : s.rows.get? runId = none) (hholds : c'.holds = [runId] ∨ c'.holds = []) (hlives : c'.lives = c'.holds)
      (hrecovers : c'.recovers = []) : Move s c ev (s.rows.set runId {budget}) c' []
  | start (runId : RunId) (row : RunRow) (c' : Coroutine) (hrow : s.rows.get? runId = some row)
      (hholds : c.holds = [runId]) (hsame : Same c c') :
      Move s c ev (s.rows.set runId (rewritten row .running none)) c' []
  /-- The final row, and the run goes out of hand. -/
  | final (runId : RunId) (row : RunRow) (result : FetchResult) (c' : Coroutine) (hrow : s.rows.get? runId = some row)
      (hholds : c.holds = [runId]) (hrecovers : c.recovers = []) (hdone : c'.holds = [])
      (hlives : c'.lives = [runId] ∨ c'.lives = []) (hrecovers' : c'.recovers = []) :
      Move s c ev (s.rows.set runId (rewritten row .finished (some result))) c' []
  /-- The final row of a task whose write is interrupted: the handler will write another. -/
  | disturbed (runId : RunId) (row : RunRow) (result : FetchResult) (budget : ResourceBudget) (requested : Bool) (c' : Coroutine)
      (hc : c = .task runId budget (.finishing result) requested) (hev : ev.interrupts = true) (hwritten : ev.written = true)
      (hrow : s.rows.get? runId = some row) (hsame : Same c c') :
      Move s c ev (s.rows.set runId (rewritten row .finished (some result))) c' []
  /-- The same after the commit. -/
  | reopen (runId : RunId) (budget : ResourceBudget) (requested : Bool) (c' : Coroutine)
      (hc : c = .task runId budget .finished requested) (hev : ev.interrupts = true) (hholds : c'.holds = [runId])
      (hlives : c'.lives = [runId]) (hrecovers : c'.recovers = []) : Move s c ev s.rows c' []
  | spawn (runId : RunId) (budget : ResourceBudget) (c' : Coroutine) (hholds : c.holds = [runId]) (hidle : Idle c') :
      Move s c ev s.rows c' [.task runId budget .created]
  | scan (c' : Coroutine) (hscans : c.scans = true) (hev : ev = .returns) (hidle : Idle c) (hholds : c'.holds = [])
      (hlives : c'.lives = []) (hrecovers : c'.recovers = s.unfinishedRuns.map (·.runId)) : Move s c ev s.rows c' []
  | recover (runId : RunId) (row : RunRow) (result : FetchResult) (rest : List RunId) (c' : Coroutine)
      (hrow : s.rows.get? runId = some row) (hrecovers : c.recovers = runId :: rest) (hholds : c.holds = [])
      (hlives : c.lives = []) (hholds' : c'.holds = []) (hlives' : c'.lives = [])
      (hrecovers' : c'.recovers = rest ∨ c'.recovers = []) :
      Move s c ev (s.rows.set runId (rewritten row .finished (some result))) c' []

variable {s s' : State} {ev : Event}

theorem updateRun_eq_some {runId : RunId} {state : RunState} {result : Option FetchResult}
    (h : s.updateRun runId state result = some s') :
    ∃ row, s.rows.get? runId = some row ∧ s' = {s with rows := s.rows.set runId (rewritten row state result)} := by
  obtain ⟨row, hrow, rfl⟩ := Option.map_eq_some_iff.mp h
  exact ⟨row, hrow, rfl⟩

/-! ### `initialize` -/

/-- The same for `initialize`, whoever calls it. -/
inductive InitMove (s : State) (pc : InitPc) (ev : Event) : Dict RunId RunRow → InitPc → Prop
  | same (pc' : InitPc) (hsame : pc'.worklist = pc.worklist) : InitMove s pc ev s.rows pc'
  | drop (pc' : InitPc) (hdrop : pc'.worklist = []) : InitMove s pc ev s.rows pc'
  | scan (pc' : InitPc) (hpc : pc = .scanning) (hev : ev = .returns)
      (hworklist : pc'.worklist = s.unfinishedRuns.map (·.runId)) : InitMove s pc ev s.rows pc'
  | recover (runId : RunId) (row : RunRow) (result : FetchResult) (rest : List RunId) (pc' : InitPc)
      (hrow : s.rows.get? runId = some row) (hworklist : pc.worklist = runId :: rest)
      (hrest : pc'.worklist = rest ∨ pc'.worklist = []) :
      InitMove s pc ev (s.rows.set runId (rewritten row .finished (some result))) pc'

theorem worklist_recover (s : State) (rest : List Interrupted) :
    (InitPc.recover s rest).2.worklist = rest.map (·.runId) ∧ (InitPc.recover s rest).1.rows = s.rows ∧
      (InitPc.recover s rest).1.coroutines = s.coroutines := by
  cases rest with
  | nil => exact ⟨rfl, rfl, rfl⟩
  | cons run rest => exact ⟨rfl, rfl, rfl⟩

theorem InitMove.finalize {run : Interrupted} {eventId : Nat} {rest : List Interrupted} {pc' : InitPc} {r : State × InitPc}
    (h : (InitPc.finalize s run eventId).map (·, pc') = some r) (hrest : pc'.worklist = rest.map (·.runId) ∨ pc'.worklist = []) :
    r.1.coroutines = s.coroutines ∧ InitMove s (.updating run eventId rest) ev r.1.rows r.2 := by
  obtain ⟨s', hs', rfl⟩ := Option.map_eq_some_iff.mp h
  obtain ⟨row, hrow, rfl⟩ := updateRun_eq_some hs'
  exact ⟨rfl, .recover run.runId row _ _ pc' hrow rfl hrest⟩

theorem InitPc.step_move {pc : InitPc} {r : State × InitPc} (h : pc.step s ev = some r) :
    r.1.coroutines = s.coroutines ∧ InitMove s pc ev r.1.rows r.2 := by
  unfold InitPc.step at h
  split at h
  · cases h
    exact ⟨rfl, .same _ rfl⟩
  · cases h
    obtain ⟨hworklist, hrows, hcoroutines⟩ := worklist_recover s s.unfinishedRuns
    rw [hrows]
    exact ⟨hcoroutines, .scan _ rfl rfl hworklist⟩
  · cases h
    exact ⟨rfl, .same _ rfl⟩
  · exact InitMove.finalize h (.inl rfl)
  · rename_i rest
    cases h
    obtain ⟨hworklist, hrows, hcoroutines⟩ := worklist_recover s rest
    rw [hrows]
    exact ⟨hcoroutines, .same _ hworklist⟩
  · cases h
    exact ⟨rfl, .drop _ rfl⟩
  · exact InitMove.finalize h (.inr rfl)
  · exact InitMove.finalize h (.inr rfl)
  · cases h
  · cases h
  · cases h
    exact ⟨rfl, .drop _ rfl⟩
  · cases h
    exact ⟨rfl, .drop _ rfl⟩
  · cases h

/-- A call that is initialising has no run of its own in hand. -/
theorem InitMove.init {pc pc' : InitPc} {rows : Dict RunId RunRow} (h : InitMove s pc ev rows pc') :
    Move s (.init pc) ev rows (.init pc') [] := by
  cases h with
  | same _ hsame => exact .same _ ⟨rfl, rfl, hsame⟩
  | drop _ hdrop => exact .drop _ ⟨rfl, rfl, hdrop⟩
  | scan _ hpc hev hworklist =>
    subst hpc
    exact .scan _ rfl hev ⟨rfl, rfl, rfl⟩ rfl rfl hworklist
  | recover runId row result rest _ hrow hworklist hrest =>
    exact .recover runId row result rest _ hrow hworklist rfl rfl rfl rfl hrest

theorem afterInit_runs (runId : RunId) (budget : ResourceBudget) (r : State × InitPc) :
    (SubmitPc.afterInit r).1 = r.1 ∧ (Coroutine.submit runId budget (SubmitPc.afterInit r).2).holds = [] ∧
      (Coroutine.submit runId budget (SubmitPc.afterInit r).2).lives = [] ∧
      (Coroutine.submit runId budget (SubmitPc.afterInit r).2).recovers = r.2.worklist := by
  obtain ⟨s, pc⟩ := r
  cases pc <;> exact ⟨rfl, rfl, rfl, rfl⟩

theorem InitMove.submit {runId : RunId} {budget : ResourceBudget} {pc : InitPc} {r : State × InitPc}
    (h : InitMove s pc ev r.1.rows r.2) :
    Move s (.submit runId budget (.initializing pc)) ev r.1.rows (.submit runId budget (SubmitPc.afterInit r).2) [] := by
  obtain ⟨-, hholds, hlives, hrecovers⟩ := afterInit_runs runId budget r
  generalize hrows : r.1.rows = rows at h ⊢
  generalize hpc' : r.2 = pc' at h hrecovers
  cases h with
  | same _ hsame => exact .same _ ⟨hholds, hlives, hrecovers.trans hsame⟩
  | drop _ hdrop => exact .drop _ ⟨hholds, hlives, hrecovers.trans hdrop⟩
  | scan _ hpc hev hworklist =>
    subst hpc
    exact .scan _ rfl hev ⟨rfl, rfl, rfl⟩ hholds hlives (hrecovers.trans hworklist)
  | recover runId' row result rest _ hrow hworklist hrest =>
    exact .recover runId' row result rest _ hrow hworklist rfl rfl hholds hlives
      (hrest.imp hrecovers.trans hrecovers.trans)

/-! ### `submit` -/

theorem createRun_eq_some {runId : RunId} {budget : ResourceBudget} (h : createRun s runId budget = some s') :
    s.rows.get? runId = none ∧ s' = {s with rows := s.rows.set runId {budget}} := by
  unfold createRun at h
  split at h
  · cases h
  · rename_i hfresh
    cases h
    exact ⟨by simpa using hfresh, rfl⟩

variable {runId : RunId} {budget : ResourceBudget}

theorem SubmitPc.create_move {pc' : SubmitPc} {r : State × SubmitPc × List Coroutine}
    (h : (createRun s runId budget).map (·, pc', []) = some r) (hpc : pc' = .planning ∨ pc' = .over) :
    r.1.coroutines = s.coroutines ∧
      Move s (.submit runId budget .creating) ev r.1.rows (.submit runId budget r.2.1) r.2.2 := by
  obtain ⟨s', hs', rfl⟩ := Option.map_eq_some_iff.mp h
  obtain ⟨hfresh, rfl⟩ := createRun_eq_some hs'
  rcases hpc with rfl | rfl
  · exact ⟨rfl, .create runId budget _ ⟨rfl, rfl, rfl⟩ hfresh (.inl rfl) rfl rfl⟩
  · exact ⟨rfl, .create runId budget _ ⟨rfl, rfl, rfl⟩ hfresh (.inr rfl) rfl rfl⟩

theorem SubmitPc.fail_move {eventId : Nat} {pc' : SubmitPc} {r : State × SubmitPc × List Coroutine}
    (h : (fail s runId budget eventId).map (·, pc', []) = some r) (hpc : pc' = .updated ∨ pc' = .over) :
    r.1.coroutines = s.coroutines ∧
      Move s (.submit runId budget (.updating eventId)) ev r.1.rows (.submit runId budget r.2.1) r.2.2 := by
  obtain ⟨s', hs', rfl⟩ := Option.map_eq_some_iff.mp h
  obtain ⟨row, hrow, rfl⟩ := updateRun_eq_some hs'
  rcases hpc with rfl | rfl
  · exact ⟨rfl, .final runId row _ _ hrow rfl rfl rfl (.inl rfl) rfl⟩
  · exact ⟨rfl, .final runId row _ _ hrow rfl rfl rfl (.inr rfl) rfl⟩

theorem SubmitPc.step_move {pc : SubmitPc} {r : State × SubmitPc × List Coroutine} (h : pc.step s runId budget ev = some r) :
    r.1.coroutines = s.coroutines ∧ Move s (.submit runId budget pc) ev r.1.rows (.submit runId budget r.2.1) r.2.2 := by
  unfold SubmitPc.step at h
  split at h
  · rename_i pc
    obtain ⟨r', hr', rfl⟩ := Option.map_eq_some_iff.mp h
    obtain ⟨hcoroutines, hmove⟩ := InitPc.step_move hr'
    dsimp only
    rw [(afterInit_runs runId budget r').1]
    exact ⟨hcoroutines, hmove.submit⟩
  · exact create_move h (.inl rfl)
  · exact create_move h (.inr rfl)
  · exact create_move h (.inr rfl)
  · cases h
    exact ⟨rfl, .same _ ⟨rfl, rfl, rfl⟩⟩
  · cases h
    exact ⟨rfl, .same _ ⟨rfl, rfl, rfl⟩⟩
  · cases h
    exact ⟨rfl, .same _ ⟨rfl, rfl, rfl⟩⟩
  · exact fail_move h (.inl rfl)
  · exact fail_move h (.inr rfl)
  · exact fail_move h (.inr rfl)
  · cases h
    exact ⟨rfl, .drop _ ⟨rfl, rfl, rfl⟩⟩
  · cases h
    exact ⟨rfl, .spawn runId budget _ rfl ⟨rfl, rfl, rfl⟩⟩
  · cases h
  · cases h
    exact ⟨rfl, .drop _ ⟨rfl, rfl, rfl⟩⟩
  · cases h
    exact ⟨rfl, .drop _ ⟨rfl, rfl, rfl⟩⟩
  · cases h

/-! ### The task of a run -/

theorem TaskPc.caught_cases {r : State × TaskPc} (h : TaskPc.caught s ev = some r) :
    ev.interrupts = true ∧ r.1.rows = s.rows ∧ r.1.coroutines = s.coroutines ∧ ∃ f, r.2 = .appending f s.nextEventId := by
  cases ev with
  | raises written =>
    cases h
    exact ⟨rfl, rfl, rfl, _, rfl⟩
  | cancelled written =>
    cases h
    exact ⟨rfl, rfl, rfl, _, rfl⟩
  | returns => cases h
  | executed result => cases h

/-- An exception leads into a handler, with the run still in hand. -/
theorem TaskPc.caught_move {pc : TaskPc} {requested : Bool} {r : State × TaskPc} (h : TaskPc.caught s ev = some r)
    (hholds : pc.holds = true) :
    r.1.coroutines = s.coroutines ∧ Move s (.task runId budget pc requested) ev r.1.rows (.task runId budget r.2) [] := by
  obtain ⟨-, hrows, hcoroutines, f, hpc⟩ := caught_cases h
  rw [hrows, hpc]
  refine ⟨hcoroutines, .same _ ⟨?_, ?_, rfl⟩⟩
  · simp only [Coroutine.holds, hholds]
    rfl
  · cases pc <;> first | rfl | cases hholds

theorem TaskPc.recordFailure_move {f : Failure} {eventId : Nat} {requested : Bool} {pc' : TaskPc} {r : State × TaskPc}
    (h : (recordFailure s runId budget f eventId).map (·, pc') = some r) (hpc : pc' = .updated f ∨ pc' = .over) :
    r.1.coroutines = s.coroutines ∧
      Move s (.task runId budget (.updating f eventId) requested) ev r.1.rows (.task runId budget r.2) [] := by
  obtain ⟨s', hs', rfl⟩ := Option.map_eq_some_iff.mp h
  obtain ⟨row, hrow, rfl⟩ := updateRun_eq_some hs'
  rcases hpc with rfl | rfl
  · exact ⟨rfl, .final runId row _ _ hrow rfl rfl rfl (.inl rfl) rfl⟩
  · exact ⟨rfl, .final runId row _ _ hrow rfl rfl rfl (.inr rfl) rfl⟩

theorem TaskPc.starting_move {requested : Bool} {r : State × TaskPc}
    (h : afterWrite s ev (s.updateRun runId .running) .started = some r) :
    r.1.coroutines = s.coroutines ∧
      Move s (.task runId budget .starting requested) ev r.1.rows (.task runId budget r.2) [] := by
  unfold afterWrite at h
  split at h
  · obtain ⟨s', hs', hnext⟩ := Option.bind_eq_some_iff.mp h
    obtain ⟨row, hrow, rfl⟩ := updateRun_eq_some hs'
    split at hnext
    · obtain ⟨-, hrows, hcoroutines, f, hpc⟩ := caught_cases hnext
      rw [hrows, hpc]
      exact ⟨hcoroutines, .start runId row _ hrow rfl ⟨rfl, rfl, rfl⟩⟩
    · cases hnext
      exact ⟨rfl, .start runId row _ hrow rfl ⟨rfl, rfl, rfl⟩⟩
  · exact caught_move h rfl

theorem TaskPc.finishing_move {result : FetchResult} {requested : Bool} {r : State × TaskPc}
    (h : afterWrite s ev (s.updateRun runId .finished (some result)) .finished = some r) :
    r.1.coroutines = s.coroutines ∧
      Move s (.task runId budget (.finishing result) requested) ev r.1.rows (.task runId budget r.2) [] := by
  unfold afterWrite at h
  split at h
  · rename_i hwritten
    obtain ⟨s', hs', hnext⟩ := Option.bind_eq_some_iff.mp h
    obtain ⟨row, hrow, rfl⟩ := updateRun_eq_some hs'
    split at hnext
    · obtain ⟨hev, hrows, hcoroutines, f, hpc⟩ := caught_cases hnext
      rw [hrows, hpc]
      exact ⟨hcoroutines, .disturbed runId row result budget requested _ rfl hev hwritten hrow ⟨rfl, rfl, rfl⟩⟩
    · cases hnext
      exact ⟨rfl, .final runId row result _ hrow rfl rfl rfl (.inl rfl) rfl⟩
  · exact caught_move h rfl

theorem TaskPc.step_move {pc : TaskPc} {requested : Bool} {r : State × TaskPc} (h : pc.step s runId budget ev = some r) :
    r.1.coroutines = s.coroutines ∧ Move s (.task runId budget pc requested) ev r.1.rows (.task runId budget r.2) [] := by
  unfold TaskPc.step at h
  split at h
  · cases h
    exact ⟨rfl, .same _ ⟨rfl, rfl, rfl⟩⟩
  · cases h
    exact ⟨rfl, .drop _ ⟨rfl, rfl, rfl⟩⟩
  · exact starting_move h
  · cases h
    exact ⟨rfl, .same _ ⟨rfl, rfl, rfl⟩⟩
  · cases h
    exact ⟨rfl, .same _ ⟨rfl, rfl, rfl⟩⟩
  · exact finishing_move h
  · cases h
    exact ⟨rfl, .same _ ⟨rfl, rfl, rfl⟩⟩
  · exact caught_move h rfl
  · exact caught_move h rfl
  · obtain ⟨hev, hrows, hcoroutines, f, hpc⟩ := caught_cases h
    rw [hrows, hpc]
    exact ⟨hcoroutines, .reopen runId budget requested _ rfl hev rfl rfl rfl⟩
  · cases h
    exact ⟨rfl, .same _ ⟨rfl, rfl, rfl⟩⟩
  · exact recordFailure_move h (.inl rfl)
  · exact recordFailure_move h (.inr rfl)
  · exact recordFailure_move h (.inr rfl)
  · rename_i f
    cases h
    by_cases hf : f = runCancelled
    · rw [if_pos hf]
      exact ⟨rfl, .drop _ ⟨rfl, rfl, rfl⟩⟩
    · rw [if_neg hf]
      exact ⟨rfl, .same _ ⟨rfl, rfl, rfl⟩⟩
  · cases h
    exact ⟨rfl, .drop _ ⟨rfl, rfl, rfl⟩⟩
  · cases h
    exact ⟨rfl, .drop _ ⟨rfl, rfl, rfl⟩⟩
  · cases h
  · cases h
  · cases h
    exact ⟨rfl, .drop _ ⟨rfl, rfl, rfl⟩⟩
  · cases h
    exact ⟨rfl, .drop _ ⟨rfl, rfl, rfl⟩⟩
  · cases h

/-! ### Coroutines -/

theorem ClosePc.step_move {pc : ClosePc} {r : State × ClosePc} (h : pc.step s ev = some r) :
    r.1.coroutines = s.coroutines ∧ Move s (.close pc) ev r.1.rows (.close r.2) [] := by
  unfold ClosePc.step at h
  split at h
  · split at h
    · cases h
      exact ⟨rfl, .same _ ⟨rfl, rfl, rfl⟩⟩
    · cases h
  · cases h
    exact ⟨rfl, .same _ ⟨rfl, rfl, rfl⟩⟩
  · cases h
  · cases h
    exact ⟨rfl, .same _ ⟨rfl, rfl, rfl⟩⟩
  · cases h
    exact ⟨rfl, .same _ ⟨rfl, rfl, rfl⟩⟩
  · cases h

theorem Coroutine.step_move {c c' : Coroutine} {started : List Coroutine} (h : c.step s ev = some (s', c', started)) :
    s'.coroutines = s.coroutines ∧ Move s c ev s'.rows c' started := by
  unfold Coroutine.step at h
  split at h
  · obtain ⟨r, hr, heq⟩ := Option.map_eq_some_iff.mp h
    cases heq
    obtain ⟨hcoroutines, hmove⟩ := InitPc.step_move hr
    exact ⟨hcoroutines, hmove.init⟩
  · obtain ⟨r, hr, heq⟩ := Option.map_eq_some_iff.mp h
    cases heq
    exact SubmitPc.step_move hr
  · split at h
    · obtain ⟨r, hr, heq⟩ := Option.map_eq_some_iff.mp h
      cases heq
      exact TaskPc.step_move hr
    · cases h
    · cases h
    · obtain ⟨r, hr, heq⟩ := Option.map_eq_some_iff.mp h
      cases heq
      exact TaskPc.step_move hr
  · obtain ⟨r, hr, heq⟩ := Option.map_eq_some_iff.mp h
    cases heq
    exact ClosePc.step_move hr

/-! ### The gateway -/

/-- What one step of the gateway does: a coroutine moves, or only calls and cancellations
come in. -/
inductive Stepped (s : State) (s' : State) : Action → Prop
  | resumed (i : Nat) (ev : Event) (c c' : Coroutine) (started : List Coroutine) (hc : s.coroutines[i]? = some c)
      (hmove : Move s c ev s'.rows c' started) (hcoroutines : s'.coroutines = s.coroutines.set i c' ++ started) :
      Stepped s s' (.resume i ev)
  | framed (a : Action) (hrows : s'.rows = s.rows)
      (hsame : ∀ (j : Nat) d', s'.coroutines[j]? = some d' → Idle d' ∨ ∃ d, s.coroutines[j]? = some d ∧ Same d d') :
      Stepped s s' a

theorem Coroutine.Same.refl (c : Coroutine) : Same c c := ⟨rfl, rfl, rfl⟩

theorem Coroutine.cancel_same (c : Coroutine) : Same c c.cancel := by
  cases c with
  | task runId budget pc requested => cases pc <;> exact ⟨rfl, rfl, rfl⟩
  | init pc => exact .refl _
  | submit runId budget pc => exact .refl _
  | close pc => exact .refl _

/-- One more call, with nothing in hand. -/
theorem framed_append {l : List Coroutine} {c : Coroutine} (hidle : Idle c)
    (hl : ∀ (j : Nat) d', l[j]? = some d' → Idle d' ∨ ∃ d, s.coroutines[j]? = some d ∧ Same d d') :
    ∀ (j : Nat) d', (l ++ [c])[j]? = some d' → Idle d' ∨ ∃ d, s.coroutines[j]? = some d ∧ Same d d' := by
  intro j d' hd'
  rcases Nat.lt_or_ge j l.length with hj | hj
  · rw [List.getElem?_append_left hj] at hd'
    exact hl j d' hd'
  · rw [List.getElem?_append_right hj] at hd'
    have hmem : d' ∈ [c] := List.mem_of_getElem? hd'
    rw [List.mem_singleton] at hmem
    exact .inl (hmem ▸ hidle)

theorem step_cases {a : Action} (h : step s a = some s') : Stepped s s' a := by
  have hself : ∀ (j : Nat) d', s.coroutines[j]? = some d' → Idle d' ∨ ∃ d, s.coroutines[j]? = some d ∧ Same d d' :=
    fun j d' hd' => .inr ⟨d', hd', .refl d'⟩
  cases a with
  | submit runId budget =>
    cases h
    refine .framed _ rfl (framed_append ?_ hself)
    split <;> exact ⟨rfl, rfl, rfl⟩
  | init =>
    cases h
    refine .framed _ rfl (framed_append ?_ hself)
    unfold InitPc.begin
    split <;> exact ⟨rfl, rfl, rfl⟩
  | close =>
    cases h
    refine .framed _ rfl (framed_append ⟨rfl, rfl, rfl⟩ fun j d' hd' => ?_)
    rw [List.getElem?_map] at hd'
    obtain ⟨d, hd, rfl⟩ := Option.map_eq_some_iff.mp hd'
    refine .inr ⟨d, hd, ?_⟩
    split
    · exact d.cancel_same
    · exact .refl d
  | cancel i =>
    cases h
    refine .framed _ rfl fun j d' hd' => ?_
    rw [List.getElem?_modify] at hd'
    obtain ⟨d, hd, rfl⟩ := Option.map_eq_some_iff.mp hd'
    refine .inr ⟨d, hd, ?_⟩
    split
    · exact d.cancel_same
    · exact .refl d
  | resume i ev =>
    obtain ⟨c, hc, h⟩ := Option.bind_eq_some_iff.mp h
    obtain ⟨⟨s₁, c', started⟩, hstep, h⟩ := Option.bind_eq_some_iff.mp h
    cases h
    obtain ⟨hcoroutines, hmove⟩ := Coroutine.step_move hstep
    exact .resumed i ev c c' started hc hmove (by rw [← hcoroutines])

/-- Where the coroutines of the new state come from. -/
theorem resumed_cases {l : List Coroutine} {i j : Nat} {c' d : Coroutine} {started : List Coroutine}
    (hd : (l.set i c' ++ started)[j]? = some d) :
    (j = i ∧ d = c') ∨ (j ≠ i ∧ l[j]? = some d) ∨ (l.length ≤ j ∧ started[j - l.length]? = some d) := by
  rcases Nat.lt_or_ge j (l.set i c').length with hj | hj
  · rw [List.getElem?_append_left hj, List.getElem?_set] at hd
    rw [List.length_set] at hj
    by_cases hij : i = j
    · subst hij
      simp only [if_true, hj] at hd
      exact .inl ⟨rfl, (Option.some.inj hd).symm⟩
    · rw [if_neg hij] at hd
      exact .inr (.inl ⟨fun h => hij h.symm, hd⟩)
  · rw [List.getElem?_append_right hj] at hd
    rw [List.length_set] at hj hd
    exact .inr (.inr ⟨hj, hd⟩)

variable {i : Nat} {c' : Coroutine}

/-- The coroutines when one of them has moved. -/
theorem replaced_cases (h : s'.coroutines = s.coroutines.set i c' ++ []) (j : Nat) (d : Coroutine)
    (hd : s'.coroutines[j]? = some d) : (j = i ∧ d = c') ∨ (j ≠ i ∧ s.coroutines[j]? = some d) := by
  rw [h] at hd
  obtain hmoved | hother | ⟨-, hstarted⟩ := resumed_cases hd
  · exact .inl hmoved
  · exact .inr hother
  · simp at hstarted

/-- The coroutines when one of them has given its run to a new one. -/
theorem spawned_cases {t : Coroutine} (hidle : Idle c') (h : s'.coroutines = s.coroutines.set i c' ++ [t]) (j : Nat)
    (d : Coroutine) (hd : s'.coroutines[j]? = some d) :
    Idle d ∨ (j ≠ i ∧ s.coroutines[j]? = some d) ∨ (j = s.coroutines.length ∧ d = t) := by
  rw [h] at hd
  obtain ⟨-, rfl⟩ | hother | ⟨hj, hstarted⟩ := resumed_cases hd
  · exact .inl hidle
  · exact .inr (.inl hother)
  · have hlt := (List.getElem?_eq_some_iff.mp hstarted).1
    rw [List.length_singleton] at hlt
    have hzero : j - s.coroutines.length = 0 := by omega
    rw [hzero] at hstarted
    exact .inr (.inr ⟨by omega, by simpa using hstarted.symm⟩)

end Fetech.Gateway
