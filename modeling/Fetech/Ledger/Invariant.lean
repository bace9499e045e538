import Fetech.Ledger
import Fetech.Lib.Lists

/-! What holds of the ledger and its streams after any order of steps.

A step of the ledger is one of the cases of `Step`, a step of a stream one of those of
`Advanced`. The invariant (`Sound`) says what a stream may hold: events of its run, each
once, and an end marker only when an `update_run` is finishing the run; and that a stream
that saw the run unfinished is told of every later finish (`Told`). -/
namespace Fetech.Ledger
open Lib

namespace Stream

/-- The history the stream has not yet yielded. -/
def rest (st : Stream) : List Event :=
  match st.pc with
  | .replaying rest => rest
  | _ => []

end Stream

/-! ### The invariant -/

/-- An `update_run` that finishes the run has begun. -/
def Finishing (s : State) (runId : RunId) : Prop := ∃ u ∈ s.updates, u.finishes runId = true

/-- One of them has committed and not yet told the subscribers. -/
def Notifying (s : State) (runId : RunId) : Prop := ∃ u ∈ s.updates, u.finishes runId = true ∧ u.pc = .notifying

/-- The row of the run says so. -/
def Finished (s : State) (runId : RunId) : Prop := ∃ row, s.runs.get? runId = some row ∧ row.state = .finished

/-- A stream that waits is told of every finish. -/
def Told (s : State) (st : Stream) : Prop :=
  st.pc = .waiting → Finished s st.runId → none ∈ st.queue ∨ Notifying s st.runId

/-- What holds of a stream. -/
structure Contents (s : State) (st : Stream) : Prop where
  fresh : st.pc = .reading → st.received = []
  seen : ∀ id, id ∈ st.seen ↔ ∃ e ∈ st.received, e.eventId = id
  once : ((st.received ++ st.rest).map (·.eventId)).Nodup
  own : ∀ e, e ∈ st.received ∨ e ∈ st.rest ∨ some e ∈ st.queue → e ∈ s.events ∧ e.runId = st.runId
  marked : none ∈ st.queue ∨ st.pc = .draining ∨ st.pc = .ended → Finishing s st.runId
  told : Told s st

/-- What holds of stream `i`: its queue is served as long as it is open. -/
structure StreamSound (s : State) (i : Nat) (st : Stream) : Prop extends Contents s st where
  served : ∀ runId, i ∈ s.queuesOf runId ↔ st.isOpen = true ∧ st.runId = runId

structure Sound (s : State) : Prop where
  distinct : (s.events.map (·.eventId)).Nodup
  committed : ∀ c ∈ s.appends, c.pc = .notifying ∨ c.pc = .returned → c.event ∈ s.events
  finished : ∀ runId, Finished s runId → Finishing s runId
  known : ∀ i runId, i ∈ s.queuesOf runId → i < s.streams.length
  streams : ∀ (i : Nat) st, s.streams[i]? = some st → StreamSound s i st

variable {z : Sanitizer} {s s' : State} {i : Nat} {st : Stream} {a : Action}

/-- What one step of a stream does. -/
inductive Stream.Advanced (events : List Event) (runs : Dict RunId RunRow) (st : Stream) : Stream → Prop
  | read (hpc : st.pc = .reading) :
      Advanced events runs st {st with pc := .replaying (events.filter (·.runId == st.runId))}
  | replay (e : Event) (rest : List Event) (hpc : st.pc = .replaying (e :: rest)) :
      Advanced events runs st ({st with pc := .replaying rest}.yield e)
  | replayed (hpc : st.pc = .replaying []) : Advanced events runs st {st with pc := .checking}
  | unknown (hpc : st.pc = .checking) (hrow : runs.get? st.runId = none) :
      Advanced events runs st {st with pc := .raised}
  | finished (row : RunRow) (hpc : st.pc = .checking) (hrow : runs.get? st.runId = some row)
      (hstate : row.state = .finished) : Advanced events runs st {st with pc := .draining}
  | unfinished (row : RunRow) (hpc : st.pc = .checking) (hrow : runs.get? st.runId = some row)
      (hstate : row.state ≠ .finished) : Advanced events runs st {st with pc := .waiting}
  | drained (hpc : st.pc = .draining) (hqueue : st.queue = []) : Advanced events runs st {st with pc := .ended}
  | took (item : Option Event) (queue : List (Option Event)) (hpc : st.pc = .draining ∨ st.pc = .waiting)
      (hqueue : st.queue = item :: queue) : Advanced events runs st (st.take queue item)

theorem Stream.advance_cases {events : List Event} {runs : Dict RunId RunRow} {st' : Stream}
    (h : st.advance events runs = some st') : st.Advanced events runs st' := by
  unfold advance at h
  split at h
  · rename_i hpc
    cases h
    exact .read hpc
  · rename_i e rest hpc
    cases h
    exact .replay e rest hpc
  · rename_i hpc
    cases h
    exact .replayed hpc
  · rename_i hpc
    split at h
    · rename_i hrow
      cases h
      exact .unknown hpc hrow
    · rename_i row hrow
      cases h
      by_cases hstate : row.state = .finished
      · rw [if_pos hstate]
        exact .finished row hpc hrow hstate
      · rw [if_neg hstate]
        exact .unfinished row hpc hrow hstate
  · rename_i hpc
    split at h
    · rename_i hqueue
      cases h
      exact .drained hpc hqueue
    · rename_i item queue hqueue
      cases h
      exact .took item queue (.inl hpc) hqueue
  · rename_i hpc
    split at h
    · cases h
    · rename_i item queue hqueue
      cases h
      exact .took item queue (.inr hpc) hqueue
  · cases h
  · cases h

/-- What one step does. -/
inductive Step (z : Sanitizer) (s : State) : Action → State → Prop
  | createRun (runId : RunId) (authenticated : Bool) :
      Step z s (.createRun runId authenticated) (s.createRun runId authenticated)
  | append (e : Event) : Step z s (.append e) {s with appends := s.appends ++ [{event := s.sanitized z e}]}
  | commitAppend (i : Nat) (c : AppendCall) (hc : s.appends[i]? = some c) (hpc : c.pc = .committing) :
      Step z s (.commitAppend i) (s.commitAppend i c)
  | notifyAppend (i : Nat) (c : AppendCall) (hc : s.appends[i]? = some c) (hpc : c.pc = .notifying) :
      Step z s (.notifyAppend i) {s with
        streams := s.put c.event.runId (some c.event), appends := s.appends.set i {c with pc := .returned}}
  | updateRun (runId : RunId) (state : RunState) (result : Option FetchResult) :
      Step z s (.updateRun runId state result) {s with updates := s.updates ++ [{runId, state, result}]}
  | commitUpdate (i : Nat) (u : UpdateCall) (hu : s.updates[i]? = some u) (hpc : u.pc = .committing) :
      Step z s (.commitUpdate i) (s.commitUpdate z i u)
  | notifyUpdate (i : Nat) (u : UpdateCall) (hu : s.updates[i]? = some u) (hpc : u.pc = .notifying) :
      Step z s (.notifyUpdate i) (s.notifyUpdate i u)
  | subscribe (runId : RunId) :
      Step z s (.subscribe runId) {s with
        streams := s.streams ++ [{runId}]
        subscribers := s.subscribers.set runId (s.queuesOf runId ++ [s.streams.length])}
  | advance (i : Nat) (st st' : Stream) (hst : s.streams[i]? = some st) (hst' : st.Advanced s.events s.runs st') :
      Step z s (.advance i) (s.setStream i st')

theorem step_cases (h : s.step z a = some s') : Step z s a s' := by
  cases a with
  | createRun runId authenticated =>
    simp only [State.step] at h
    split at h
    · cases h
    · cases h
      exact .createRun runId authenticated
  | append e =>
    cases h
    exact .append e
  | commitAppend i =>
    simp only [State.step] at h
    split at h
    · rename_i c hc
      split at h
      · rename_i hpc
        cases h
        exact .commitAppend i c hc hpc
      · cases h
    · cases h
  | notifyAppend i =>
    simp only [State.step] at h
    split at h
    · rename_i c hc
      split at h
      · rename_i hpc
        cases h
        exact .notifyAppend i c hc hpc
      · cases h
    · cases h
  | updateRun runId state result =>
    cases h
    exact .updateRun runId state result
  | commitUpdate i =>
    simp only [State.step] at h
    split at h
    · rename_i u hu
      split at h
      · rename_i hpc
        cases h
        exact .commitUpdate i u hu hpc
      · cases h
    · cases h
  | notifyUpdate i =>
    simp only [State.step] at h
    split at h
    · rename_i u hu
      split at h
      · rename_i hpc
        cases h
        exact .notifyUpdate i u hu hpc
      · cases h
    · cases h
  | subscribe runId =>
    cases h
    exact .subscribe runId
  | advance i =>
    simp only [State.step] at h
    split at h
    · rename_i st hst
      obtain ⟨st', hst', rfl⟩ := Option.map_eq_some_iff.mp h
      exact .advance i st st' hst (Stream.advance_cases hst')
    · cases h

/-- A stream that a step does not touch, when what it rests on only grows. -/
theorem StreamSound.of_grown (h : StreamSound s i st) (hserved : ∀ runId, i ∈ s'.queuesOf runId ↔ i ∈ s.queuesOf runId)
    (hevents : s.events ⊆ s'.events) (hfinishing : Finishing s st.runId → Finishing s' st.runId)
    (htold : Told s' st) : StreamSound s' i st where
  served runId := (hserved runId).trans (h.served runId)
  fresh := h.fresh
  seen := h.seen
  once := h.once
  own e he := ⟨hevents (h.own e he).1, (h.own e he).2⟩
  marked hm := hfinishing (h.marked hm)
  told := htold

/-- Events and streams stay. -/
theorem Step.grows (hstep : Step z s a s') : s.events ⊆ s'.events ∧ s.streams.length ≤ s'.streams.length := by
  cases hstep with
  | createRun runId authenticated => exact ⟨fun _ he => he, le_refl _⟩
  | append e => exact ⟨fun _ he => he, le_refl _⟩
  | commitAppend i c hc hpc =>
    unfold State.commitAppend
    split
    · exact ⟨fun _ he => he, le_refl _⟩
    · exact ⟨fun _ he => List.mem_append_left _ he, le_refl _⟩
  | notifyAppend i c hc hpc => exact ⟨fun _ he => he, by simp [State.put]⟩
  | updateRun runId state result => exact ⟨fun _ he => he, le_refl _⟩
  | commitUpdate i u hu hpc =>
    unfold State.commitUpdate
    split <;> exact ⟨fun _ he => he, le_refl _⟩
  | notifyUpdate i u hu hpc =>
    unfold State.notifyUpdate
    split
    · exact ⟨fun _ he => he, by simp [State.put]⟩
    · exact ⟨fun _ he => he, le_refl _⟩
  | subscribe runId => exact ⟨fun _ he => he, by simp⟩
  | advance i st st' hst hst' => exact ⟨fun _ he => he, by simp [State.setStream]⟩

/-! ### Calls -/

theorem Sound.createRun (h : Sound s) (runId : RunId) (authenticated : Bool) :
    Sound (s.createRun runId authenticated) := by
  have hfinished : ∀ id, Finished (s.createRun runId authenticated) id → Finished s id := by
    rintro id ⟨row, hrow, hstate⟩
    simp only [State.createRun, Dict.get?_set] at hrow
    split at hrow
    · cases hrow
      cases hstate
    · exact ⟨row, hrow, hstate⟩
  refine ⟨h.distinct, h.committed, fun id hid => h.finished id (hfinished id hid), h.known, fun i st hst => ?_⟩
  have hs := h.streams i st hst
  exact hs.of_grown (fun _ => .rfl) (fun _ he => he) id fun hpc hrow => hs.told hpc (hfinished _ hrow)

theorem Sound.append (h : Sound s) (e : Event) : Sound {s with appends := s.appends ++ [{event := e}]} := by
  refine ⟨h.distinct, fun c hc hpc => ?_, h.finished, h.known, fun i st hst => ?_⟩
  · rcases List.mem_append.mp hc with hc | hc
    · exact h.committed c hc hpc
    · rw [List.mem_singleton] at hc
      subst hc
      simp at hpc
  · have hs := h.streams i st hst
    exact hs.of_grown (fun _ => .rfl) (fun _ he => he) id hs.told

theorem Sound.commitAppend (h : Sound s) {i : Nat} {c : AppendCall} : Sound (s.commitAppend i c) := by
  unfold State.commitAppend
  split
  · refine ⟨h.distinct, fun d hd hpc => ?_, h.finished, h.known, fun j st hst => ?_⟩
    · rcases List.mem_or_eq_of_mem_set hd with hd | rfl
      · exact h.committed d hd hpc
      · simp at hpc
    · have hs := h.streams j st hst
      exact hs.of_grown (fun _ => .rfl) (fun _ he => he) id hs.told
  · rename_i hnew
    refine ⟨?_, fun d hd hpc => ?_, h.finished, h.known, fun j st hst => ?_⟩
    · rw [List.map_append, List.map_singleton, ← List.concat_eq_append, List.nodup_concat]
      refine ⟨fun hmem => hnew ?_, h.distinct⟩
      obtain ⟨e, he, hid⟩ := List.mem_map.mp hmem
      exact List.any_eq_true.mpr ⟨e, he, by simpa using hid⟩
    · rcases List.mem_or_eq_of_mem_set hd with hd | rfl
      · exact List.mem_append_left _ (h.committed d hd hpc)
      · exact List.mem_append_right _ (List.mem_singleton_self _)
    · have hs := h.streams j st hst
      exact hs.of_grown (fun _ => .rfl) (fun _ he => List.mem_append_left _ he) id hs.told

theorem Sound.updateRun (h : Sound s) (u : UpdateCall) : Sound {s with updates := s.updates ++ [u]} := by
  have hfinishing : ∀ runId, Finishing s runId → Finishing {s with updates := s.updates ++ [u]} runId :=
    fun runId ⟨v, hv, hfinishes⟩ => ⟨v, List.mem_append_left _ hv, hfinishes⟩
  refine ⟨h.distinct, h.committed, fun runId hrow => hfinishing runId (h.finished runId hrow), h.known, fun i st hst => ?_⟩
  have hs := h.streams i st hst
  refine hs.of_grown (fun _ => .rfl) (fun _ he => he) (hfinishing _) fun hpc hrow => ?_
  exact (hs.told hpc hrow).imp_right fun ⟨v, hv, hnotifying⟩ => ⟨v, List.mem_append_left _ hv, hnotifying⟩

theorem Sound.commitUpdate (h : Sound s) {z : Sanitizer} {i : Nat} {u : UpdateCall} (hu : s.updates[i]? = some u)
    (hpc : u.pc = .committing) : Sound (s.commitUpdate z i u) := by
  have hfinishing : ∀ runId pc, Finishing s runId → ∃ v ∈ s.updates.set i {u with pc}, v.finishes runId = true :=
    fun runId pc => Lists.exists_mem_set hu id
  have hnotifying : ∀ runId pc, Notifying s runId →
      ∃ v ∈ s.updates.set i {u with pc}, v.finishes runId = true ∧ v.pc = .notifying :=
    fun runId pc => Lists.exists_mem_set hu fun hp => by simp [hpc] at hp
  unfold State.commitUpdate
  split
  · refine ⟨h.distinct, h.committed, fun runId hrow => hfinishing runId _ (h.finished runId hrow), h.known,
      fun j st hst => ?_⟩
    have hs := h.streams j st hst
    exact hs.of_grown (fun _ => .rfl) (fun _ he => he) (hfinishing _ _) fun hwaiting hrow =>
      (hs.told hwaiting hrow).imp_right (hnotifying _ _)
  · rename_i row hrow
    have hcases : ∀ runId, Finished {s with
          runs := s.runs.set u.runId {row with
            state := u.state
            result := (u.result.map (z.result (s.authenticatedRuns.contains u.runId))).or row.result}
          updates := s.updates.set i {u with pc := .notifying}} runId →
        Finished s runId ∨ ∃ v ∈ s.updates.set i {u with pc := .notifying}, v.finishes runId = true ∧ v.pc = .notifying := by
      rintro runId ⟨row', hrow', hstate⟩
      simp only [Dict.get?_set] at hrow'
      split at hrow'
      · rename_i heq
        cases hrow'
        refine .inr ⟨_, List.mem_set (List.getElem?_eq_some_iff.mp hu).1 _, ?_, rfl⟩
        simpa [UpdateCall.finishes, heq] using hstate
      · exact .inl ⟨row', hrow', hstate⟩
    refine ⟨h.distinct, h.committed, fun runId hfinished => ?_, h.known, fun j st hst => ?_⟩
    · obtain hold | ⟨v, hv, hfinishes, -⟩ := hcases runId hfinished
      · exact hfinishing runId _ (h.finished runId hold)
      · exact ⟨v, hv, hfinishes⟩
    · have hs := h.streams j st hst
      refine hs.of_grown (fun _ => .rfl) (fun _ he => he) (hfinishing _ _) fun hwaiting hfinished => ?_
      obtain hold | hnew := hcases _ hfinished
      · exact (hs.told hwaiting hold).imp_right (hnotifying _ _)
      · exact .inr hnew

/-! ### Notifications -/

theorem getElem?_put (runId : RunId) (item : Option Event) (i : Nat) :
    (s.put runId item)[i]? =
      (s.streams[i]?).map fun st => if i ∈ s.queuesOf runId then {st with queue := st.queue ++ [item]} else st := by
  simp [State.put, List.getElem?_mapIdx]

/-- An item is queued for every stream of the run and no other. -/
theorem put_cases (h : Sound s) {runId : RunId} {item : Option Event} {i : Nat} {st' : Stream}
    (hst : (s.put runId item)[i]? = some st') :
    ∃ st, s.streams[i]? = some st ∧
      ((st.isOpen = true ∧ st.runId = runId ∧ st' = {st with queue := st.queue ++ [item]}) ∨
        (¬ (st.isOpen = true ∧ st.runId = runId) ∧ st' = st)) := by
  rw [getElem?_put] at hst
  obtain ⟨st, hst, hst'⟩ := Option.map_eq_some_iff.mp hst
  have hserved := (h.streams i st hst).served runId
  refine ⟨st, hst, ?_⟩
  split at hst'
  · rename_i hmem
    exact .inl ⟨(hserved.mp hmem).1, (hserved.mp hmem).2, hst'.symm⟩
  · rename_i hmem
    exact .inr ⟨fun hopen => hmem (hserved.mpr hopen), hst'.symm⟩

/-- A stream with one more item in its queue. -/
theorem StreamSound.enqueue (h : StreamSound s i st) (item : Option Event)
    (hitem : ∀ e, item = some e → e ∈ s.events ∧ e.runId = st.runId) (hmark : item = none → Finishing s st.runId) :
    StreamSound s i {st with queue := st.queue ++ [item]} where
  served := h.served
  fresh := h.fresh
  seen := h.seen
  once := h.once
  own e he := by
    rcases he with he | he | he
    · exact h.own e (.inl he)
    · exact h.own e (.inr (.inl he))
    · rcases List.mem_append.mp he with he | he
      · exact h.own e (.inr (.inr he))
      · exact hitem e (List.mem_singleton.mp he).symm
  marked hm := by
    rcases hm with hm | hm
    · rcases List.mem_append.mp hm with hm | hm
      · exact h.marked (.inl hm)
      · exact hmark (List.mem_singleton.mp hm).symm
    · exact h.marked (.inr hm)
  told hpc hrow := (h.told hpc hrow).imp_left (List.mem_append_left _)

theorem length_put (runId : RunId) (item : Option Event) : (s.put runId item).length = s.streams.length := by
  simp [State.put]

theorem Sound.notifyAppend (h : Sound s) {i : Nat} {c : AppendCall} (hc : s.appends[i]? = some c)
    (hpc : c.pc = .notifying) :
    Sound {s with streams := s.put c.event.runId (some c.event), appends := s.appends.set i {c with pc := .returned}} := by
  have hevent : c.event ∈ s.events := h.committed c (List.mem_of_getElem? hc) (.inl hpc)
  refine ⟨h.distinct, fun d hd hpc => ?_, h.finished, fun j runId hj => ?_, fun j st' hst' => ?_⟩
  · rcases List.mem_or_eq_of_mem_set hd with hd | rfl
    · exact h.committed d hd hpc
    · exact hevent
  · rw [length_put]
    exact h.known j runId hj
  · obtain ⟨st, hst, ⟨-, hrun, rfl⟩ | ⟨-, rfl⟩⟩ := put_cases h hst'
    · have hs := (h.streams j st hst).enqueue (some c.event)
        (fun e he => by cases he; exact ⟨hevent, hrun.symm⟩) (by simp)
      exact hs.of_grown (fun _ => .rfl) (fun _ he => he) id hs.told
    · have hs := h.streams j _ hst
      exact hs.of_grown (fun _ => .rfl) (fun _ he => he) id hs.told

theorem Sound.notifyUpdate (h : Sound s) {i : Nat} {u : UpdateCall} (hu : s.updates[i]? = some u) :
    Sound (s.notifyUpdate i u) := by
  have hfinishing : ∀ runId, Finishing s runId → Finishing (s.notifyUpdate i u) runId :=
    fun runId => Lists.exists_mem_set hu id
  -- An `update_run` still to notify is another one, unless the run is this one's.
  have hnotifying : ∀ runId, ¬ (u.state = .finished ∧ u.runId = runId) → Notifying s runId →
      Notifying (s.notifyUpdate i u) runId := by
    intro runId hother
    refine Lists.exists_mem_set hu fun hp => absurd ?_ hother
    simpa [UpdateCall.finishes, and_comm] using hp.1
  by_cases hstate : u.state = .finished
  · have hstreams : (s.notifyUpdate i u).streams = s.put u.runId none := by simp [State.notifyUpdate, hstate]
    have hbegun : Finishing s u.runId := ⟨u, List.mem_of_getElem? hu, by simp [UpdateCall.finishes, hstate]⟩
    refine ⟨h.distinct, h.committed, fun runId hrow => hfinishing runId (h.finished runId hrow), fun j runId hj => ?_,
      fun j st' hst' => ?_⟩
    · rw [hstreams, length_put]
      exact h.known j runId hj
    · rw [hstreams] at hst'
      obtain ⟨st, hst, ⟨-, hrun, rfl⟩ | ⟨hother, rfl⟩⟩ := put_cases h hst'
      · have hs := (h.streams j st hst).enqueue none (by simp) fun _ => hrun ▸ hbegun
        exact hs.of_grown (fun _ => .rfl) (fun _ he => he) (hfinishing _) fun _ _ => .inl (by simp)
      · have hs := h.streams j _ hst
        refine hs.of_grown (fun _ => .rfl) (fun _ he => he) (hfinishing _) fun hwaiting hrow => ?_
        refine (hs.told hwaiting hrow).imp_right (hnotifying _ fun hsame => hother ⟨?_, hsame.2.symm⟩)
        simp [Stream.isOpen, hwaiting]
  · have hstreams : (s.notifyUpdate i u).streams = s.streams := by simp [State.notifyUpdate, hstate]
    refine ⟨h.distinct, h.committed, fun runId hrow => hfinishing runId (h.finished runId hrow), fun j runId hj => ?_,
      fun j st hst => ?_⟩
    · rw [hstreams]
      exact h.known j runId hj
    · rw [hstreams] at hst
      have hs := h.streams j st hst
      refine hs.of_grown (fun _ => .rfl) (fun _ he => he) (hfinishing _) fun hwaiting hrow => ?_
      exact (hs.told hwaiting hrow).imp_right (hnotifying _ fun hsame => hstate hsame.1)

/-! ### Streams -/

theorem Sound.subscribe (h : Sound s) (runId : RunId) :
    Sound {s with
      streams := s.streams ++ [{runId}]
      subscribers := s.subscribers.set runId (s.queuesOf runId ++ [s.streams.length])} := by
  have hqueues : ∀ j id, j ∈ (s.subscribers.set runId (s.queuesOf runId ++ [s.streams.length])).getD id [] ↔
      j ∈ s.queuesOf id ∨ (j = s.streams.length ∧ id = runId) := by
    intro j id
    rw [Dict.getD_set]
    by_cases hid : id = runId
    · simp [hid]
    · simp [hid, State.queuesOf]
  refine ⟨h.distinct, h.committed, h.finished, fun j id hj => ?_, fun j st hst => ?_⟩
  · rw [List.length_append, List.length_singleton]
    rcases (hqueues j id).mp hj with hj | ⟨hj, -⟩
    · exact Nat.lt_succ_of_lt (h.known j id hj)
    · omega
  · rcases Nat.lt_trichotomy j s.streams.length with hj | hj | hj
    · rw [List.getElem?_append_left hj] at hst
      have hs := h.streams j st hst
      refine hs.of_grown (fun id => (hqueues j id).trans ?_) (fun _ he => he) id hs.told
      exact or_iff_left fun hnew => Nat.ne_of_lt hj hnew.1
    · subst hj
      rw [List.getElem?_concat_length] at hst
      cases hst
      refine ⟨⟨fun _ => rfl, by simp, List.nodup_nil, fun e he => ?_, fun hm => ?_, nofun⟩, fun id => (hqueues _ id).trans ?_⟩
      · rcases he with he | he | he <;> cases he
      · rcases hm with hm | hm | hm <;> cases hm
      · have hfresh : s.streams.length ∉ s.queuesOf id := fun hmem => Nat.lt_irrefl _ (h.known _ id hmem)
        simp [hfresh, Stream.isOpen, eq_comm]
    · rw [List.getElem?_eq_none (by simp; omega)] at hst
      cases hst

theorem Stream.seen_yield (h : ∀ id, id ∈ st.seen ↔ ∃ e ∈ st.received, e.eventId = id) (e : Event) (id : Nat) :
    id ∈ (st.yield e).seen ↔ ∃ x ∈ (st.yield e).received, x.eventId = id := by
  simp only [Stream.yield, List.mem_cons, List.mem_append, h, or_and_right, exists_or, List.not_mem_nil, or_false,
    exists_eq_left]
  rw [or_comm, eq_comm]

/-- An item leaves the queue. -/
theorem Contents.take (h : Contents s st) {item : Option Event} {queue : List (Option Event)}
    (hqueue : st.queue = item :: queue) (hrest : st.rest = []) (hpc : st.pc ≠ .reading) :
    Contents s (st.take queue item) := by
  have hbefore : ∀ x ∈ queue, x ∈ st.queue := fun x hx => hqueue ▸ List.mem_cons_of_mem item hx
  have hown : ∀ e, e ∈ st.received ∨ e ∈ st.rest ∨ some e ∈ queue → e ∈ s.events ∧ e.runId = st.runId :=
    fun e he => h.own e (he.imp_right fun he => he.imp_right (hbefore _))
  cases item with
  | none =>
    have hmarked : Finishing s st.runId := h.marked (.inl (hqueue ▸ List.mem_cons_self ..))
    have honce := h.once
    rw [hrest] at honce
    refine ⟨nofun, h.seen, honce, fun e he => hown e (he.imp_right fun he => he.imp_left nofun), fun _ => hmarked, nofun⟩
  | some e =>
    have htold : Told s {st with queue} := fun hwaiting hrow => by
      have := h.told hwaiting hrow
      rw [hqueue] at this
      simpa using this
    simp only [Stream.take]
    split
    · exact ⟨h.fresh, h.seen, h.once, hown, fun hm => h.marked (hm.imp_left (hbefore _)), htold⟩
    · rename_i hnew
      have hnew : e.eventId ∉ st.seen := by simpa using hnew
      refine ⟨fun hreading => absurd hreading hpc, Stream.seen_yield h.seen e, ?_, fun x hx => ?_,
        fun hm => h.marked (hm.imp_left (hbefore _)), htold⟩
      · have honce := h.once
        rw [hrest, List.append_nil] at honce
        show ((st.received ++ [e] ++ st.rest).map (·.eventId)).Nodup
        rw [hrest, List.append_nil, List.map_append, List.map_singleton, ← List.concat_eq_append, List.nodup_concat]
        refine ⟨fun hmem => hnew ?_, honce⟩
        obtain ⟨x, hx, hid⟩ := List.mem_map.mp hmem
        exact (h.seen _).mpr ⟨x, hx, hid⟩
      · rcases hx with hx | hx
        · rcases List.mem_append.mp hx with hx | hx
          · exact hown x (.inl hx)
          · rw [List.mem_singleton] at hx
            exact hx ▸ h.own e (.inr (.inr (hqueue ▸ List.mem_cons_self ..)))
        · exact hown x (.inr hx)

/-- The stream goes on, with the history behind it. -/
theorem Contents.goTo (h : Contents s st) (hrest : st.rest = []) {pc : StreamPc} (hnext : {st with pc}.rest = [])
    (hreading : pc ≠ .reading) (hmarked : pc = .draining ∨ pc = .ended → Finishing s st.runId)
    (hwaiting : pc = .waiting → ¬ Finished s st.runId) : Contents s {st with pc} where
  fresh hpc := absurd hpc hreading
  seen := h.seen
  once := by
    have honce := h.once
    rw [hrest] at honce
    rw [hnext]
    exact honce
  own e he := by
    rw [hnext] at he
    exact h.own e (he.imp_right fun he => he.imp_left nofun)
  marked hm := by
    rcases hm with hm | hm
    · exact h.marked (.inl hm)
    · exact hmarked hm
  told hpc hrow := absurd hrow (hwaiting hpc)

/-- The history is read. -/
theorem Contents.read (h : Contents s st) (hdistinct : (s.events.map (·.eventId)).Nodup) (hpc : st.pc = .reading) :
    Contents s {st with pc := .replaying (s.events.filter (·.runId == st.runId))} where
  fresh := by simp
  seen := h.seen
  once := by
    show ((st.received ++ s.events.filter (·.runId == st.runId)).map (·.eventId)).Nodup
    rw [h.fresh hpc]
    exact hdistinct.sublist (List.filter_sublist.map _)
  own e he := by
    rcases he with he | he | he
    · exact h.own e (.inl he)
    · have hmem := List.mem_filter.mp he
      exact ⟨hmem.1, by simpa using hmem.2⟩
    · exact h.own e (.inr (.inr he))
  marked hm := h.marked (hm.imp_right (by simp))
  told := by simp [Told]

/-- An event of the history is yielded. -/
theorem Contents.replay (h : Contents s st) {e : Event} {rest : List Event} (hpc : st.pc = .replaying (e :: rest)) :
    Contents s ({st with pc := .replaying rest}.yield e) := by
  have hrest : st.rest = e :: rest := by simp [Stream.rest, hpc]
  refine ⟨by simp [Stream.yield], Stream.seen_yield h.seen e, ?_, fun x hx => ?_,
    fun hm => h.marked (hm.imp_right (by simp [Stream.yield])), by simp [Told, Stream.yield]⟩
  · have honce := h.once
    rw [hrest] at honce
    show ((st.received ++ [e] ++ rest).map (·.eventId)).Nodup
    rw [List.append_assoc]
    exact honce
  · have hin : x ∈ st.received ∨ x ∈ st.rest ∨ some x ∈ st.queue := by
      rw [hrest]
      rcases hx with hx | hx | hx
      · rcases List.mem_append.mp hx with hx | hx
        · exact .inl hx
        · exact .inr (.inl (List.mem_cons.mpr (.inl (List.mem_singleton.mp hx))))
      · exact .inr (.inl (List.mem_cons_of_mem e hx))
      · exact .inr (.inr hx)
    exact h.own x hin

/-- The stream's own step. -/
theorem Contents.advance (h : Contents s st) (hdistinct : (s.events.map (·.eventId)).Nodup)
    (hfinished : Finished s st.runId → Finishing s st.runId) {st' : Stream}
    (hst' : st.Advanced s.events s.runs st') : Contents s st' := by
  cases hst' with
  | read hpc => exact h.read hdistinct hpc
  | replay e rest hpc => exact h.replay hpc
  | replayed hpc => exact h.goTo (by simp [Stream.rest, hpc]) rfl (by simp) (by simp) (by simp)
  | unknown hpc hrow => exact h.goTo (by simp [Stream.rest, hpc]) rfl (by simp) (by simp) (by simp)
  | finished row hpc hrow hstate =>
    exact h.goTo (by simp [Stream.rest, hpc]) rfl (by simp) (fun _ => hfinished ⟨row, hrow, hstate⟩) (by simp)
  | unfinished row hpc hrow hstate =>
    refine h.goTo (by simp [Stream.rest, hpc]) rfl (by simp) (by simp) fun _ => ?_
    rintro ⟨row', hrow', hstate'⟩
    rw [hrow] at hrow'
    cases hrow'
    exact hstate hstate'
  | drained hpc hqueue =>
    exact h.goTo (by simp [Stream.rest, hpc]) rfl (by simp) (fun _ => h.marked (.inr (.inl hpc))) (by simp)
  | took item queue hpc hqueue =>
    rcases hpc with hpc | hpc
    · exact h.take hqueue (by simp [Stream.rest, hpc]) (by simp [hpc])
    · exact h.take hqueue (by simp [Stream.rest, hpc]) (by simp [hpc])

theorem Stream.take_runId (st : Stream) (queue : List (Option Event)) (item : Option Event) :
    (st.take queue item).runId = st.runId := by
  unfold take
  split
  · rfl
  · split <;> rfl

theorem Stream.Advanced.runId {events : List Event} {runs : Dict RunId RunRow} {st' : Stream}
    (h : st.Advanced events runs st') : st'.runId = st.runId := by
  cases h with
  | took item queue hpc hqueue => exact st.take_runId queue item
  | _ => rfl

theorem Stream.Advanced.isOpen {events : List Event} {runs : Dict RunId RunRow} {st' : Stream}
    (h : st.Advanced events runs st') : st.isOpen = true := by
  cases h with
  | took item queue hpc hqueue => rcases hpc with hpc | hpc <;> simp [Stream.isOpen, hpc]
  | _ => simp [Stream.isOpen, *]

/-- Who is served after a stream has left. -/
theorem mem_unsubscribe (s : State) (i : Nat) (runId : RunId) (j : Nat) (id : RunId) :
    j ∈ (s.unsubscribe i runId).getD id [] ↔ j ∈ s.queuesOf id ∧ ¬ (j = i ∧ id = runId) := by
  have hqueues : s.queuesOf runId = (s.subscribers.get? runId).getD [] := rfl
  unfold State.unsubscribe
  split
  · rename_i hnone
    rw [hnone] at hqueues
    by_cases hid : id = runId
    · subst hid
      change j ∈ s.queuesOf id ↔ _
      simp [hqueues]
    · simp [hid, State.queuesOf]
  · rename_i queues hsome
    rw [hsome, Option.getD_some] at hqueues
    dsimp only
    split
    · rename_i hempty
      rw [Dict.getD_erase]
      by_cases hid : id = runId
      · subst hid
        have hall : ∀ x ∈ queues, x = i := by simpa [List.filter_eq_nil_iff] using hempty
        simpa [hqueues] using hall j
      · simp [hid, State.queuesOf]
    · rw [Dict.getD_set]
      by_cases hid : id = runId
      · subst hid
        simp [hqueues]
      · simp [hid, State.queuesOf]

theorem Sound.advance (h : Sound s) (hst : s.streams[i]? = some st) {st' : Stream}
    (hst' : st.Advanced s.events s.runs st') : Sound (s.setStream i st') := by
  have hi := (List.getElem?_eq_some_iff.mp hst).1
  have hs := h.streams i st hst
  have hrun := hst'.runId
  have hopen := hst'.isOpen
  have hqueues : ∀ j id, j ∈ (s.setStream i st').queuesOf id ↔
      j ∈ s.queuesOf id ∧ (st'.isOpen = true ∨ ¬ (j = i ∧ id = st.runId)) := by
    intro j id
    unfold State.setStream
    rw [hrun]
    by_cases hopen' : st'.isOpen = true
    · simp [hopen', State.queuesOf]
    · simp only [hopen', State.queuesOf, if_false, Bool.false_eq_true, false_or]
      exact mem_unsubscribe s i st.runId j id
  refine ⟨h.distinct, h.committed, h.finished, fun j id hj => ?_, fun j st₁ hst₁ => ?_⟩
  · show j < (s.streams.set i st').length
    rw [List.length_set]
    exact h.known j id ((hqueues j id).mp hj).1
  · have hst₁' : (s.streams.set i st')[j]? = some st₁ := hst₁
    rw [List.getElem?_set] at hst₁'
    split at hst₁'
    · rename_i hij
      subst hij
      cases hst₁'
      have hcontents := hs.toContents.advance h.distinct (h.finished _) hst'
      refine ⟨⟨hcontents.fresh, hcontents.seen, hcontents.once, hcontents.own, hcontents.marked, hcontents.told⟩, ?_⟩
      intro id
      rw [hqueues, hs.served id, hrun]
      simp only [hopen, true_and]
      constructor
      · rintro ⟨hid, hleft⟩
        exact ⟨hleft.resolve_right fun hnot => hnot hid.symm, hid⟩
      · exact fun ⟨hopen', hid⟩ => ⟨hid, .inl hopen'⟩
    · rename_i hij
      have hs₁ := h.streams j st₁ hst₁'
      refine hs₁.of_grown (fun id => (hqueues j id).trans ?_) (fun _ he => he) id hs₁.told
      exact and_iff_left (.inr fun hsame => hij hsame.1.symm)

theorem Sound.step (h : Sound s) (hstep : Step z s a s') : Sound s' := by
  cases hstep with
  | createRun runId authenticated => exact h.createRun runId authenticated
  | append e => exact h.append _
  | commitAppend i c hc hpc => exact h.commitAppend
  | notifyAppend i c hc hpc => exact h.notifyAppend hc hpc
  | updateRun runId state result => exact h.updateRun _
  | commitUpdate i u hu hpc => exact h.commitUpdate hu hpc
  | notifyUpdate i u hu hpc => exact h.notifyUpdate hu
  | subscribe runId => exact h.subscribe runId
  | advance i st st' hst hst' => exact h.advance hst hst'

end Fetech.Ledger
