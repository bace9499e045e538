import Fetech.Ledger.Invariant

/-! Every subscriber gets every event once.

An event reaches a stream through the history, through its queue, or through both. From
its notification on, every stream of the run has it among what it still has to yield,
before any end marker, or has yielded it (`Accounted`). -/
namespace Fetech.Ledger
open Lib

variable {z : Sanitizer} {s s' : State} {i : Nat} {st : Stream} {a : Action}

/-! ### What a stream still has to yield -/

/-- The events of a queue up to its first end marker. -/
def beforeMarker : List (Option Event) → List Event
  | [] => []
  | none :: _ => []
  | some e :: rest => e :: beforeMarker rest

theorem mem_beforeMarker_append {e : Event} {queue : List (Option Event)} (h : e ∈ beforeMarker queue)
    (items : List (Option Event)) : e ∈ beforeMarker (queue ++ items) := by
  induction queue with
  | nil => cases h
  | cons item rest ih =>
    cases item with
    | none => cases h
    | some x =>
      rcases List.mem_cons.mp h with rfl | h
      · exact List.mem_cons_self ..
      · exact List.mem_cons_of_mem x (ih h)

theorem mem_beforeMarker_of_unmarked {e : Event} {queue : List (Option Event)} (h : none ∉ queue) :
    e ∈ beforeMarker (queue ++ [some e]) := by
  induction queue with
  | nil => exact List.mem_cons_self ..
  | cons item rest ih =>
    rw [List.mem_cons, not_or] at h
    cases item with
    | none => exact absurd rfl h.1
    | some x => exact List.mem_cons_of_mem x (ih h.2)

/-- The stream has yielded the event or will: it has still to read the history, or the
event is in what it has read, or in its queue before the end. -/
def Accounted (e : Event) (st : Stream) : Prop :=
  st.pc = .raised ∨ st.pc = .reading ∨ e ∈ st.received ∨ e ∈ st.rest ∨ (st.isOpen = true ∧ e ∈ beforeMarker st.queue)

/-- Every stream of its run accounts for the event. -/
def Everywhere (e : Event) (s : State) : Prop :=
  ∀ (i : Nat) st, s.streams[i]? = some st → st.runId = e.runId → Accounted e st

/-- Every event whose `append` has returned, of a run no `update_run` is finishing, is
accounted for. -/
def Kept (s : State) : Prop :=
  ∀ c ∈ s.appends, c.pc = .returned → ¬ Finishing s c.event.runId → Everywhere c.event s

/-! ### No event is lost -/

variable {e : Event}

theorem Accounted.enqueue (h : Accounted e st) (item : Option Event) :
    Accounted e {st with queue := st.queue ++ [item]} := by
  rcases h with h | h | h | h | ⟨hopen, hqueue⟩
  · exact .inl h
  · exact .inr (.inl h)
  · exact .inr (.inr (.inl h))
  · exact .inr (.inr (.inr (.inl h)))
  · exact .inr (.inr (.inr (.inr ⟨hopen, mem_beforeMarker_append hqueue _⟩)))

/-- Events with one id are one event. -/
theorem Sound.eq_of_id (h : Sound s) {x y : Event} (hx : x ∈ s.events) (hy : y ∈ s.events) (hid : x.eventId = y.eventId) :
    x = y := List.inj_on_of_nodup_map h.distinct hx hy hid

theorem Accounted.take (h : Accounted e st) (hs : Sound s) (hcontents : Contents s st) (hevent : e ∈ s.events)
    {item : Option Event} {queue : List (Option Event)} (hqueue : st.queue = item :: queue) (hrest : st.rest = [])
    (hopen : st.isOpen = true) (hreading : st.pc ≠ .reading) : Accounted e (st.take queue item) := by
  have hraised : st.pc ≠ .raised := fun hpc => by simp [Stream.isOpen, hpc] at hopen
  obtain hreceived | hpending : e ∈ st.received ∨ e ∈ beforeMarker st.queue := by
    rcases h with h | h | h | h | h
    · exact absurd h hraised
    · exact absurd h hreading
    · exact .inl h
    · rw [hrest] at h
      cases h
    · exact .inr h.2
  · have hkept : e ∈ (st.take queue item).received := by
      unfold Stream.take
      split
      · exact hreceived
      · split
        · exact hreceived
        · exact List.mem_append_left _ hreceived
    exact .inr (.inr (.inl hkept))
  · rw [hqueue] at hpending
    cases item with
    | none => cases hpending
    | some x =>
      simp only [Stream.take]
      rcases List.mem_cons.mp hpending with rfl | hlater
      · split
        · rename_i hseen
          obtain ⟨y, hy, hid⟩ := (hcontents.seen _).mp (by simpa using hseen)
          have hsame : y = e := hs.eq_of_id (hcontents.own y (.inl hy)).1 hevent hid
          exact .inr (.inr (.inl (hsame ▸ hy)))
        · exact .inr (.inr (.inl (List.mem_append_right _ (List.mem_singleton_self e))))
      · split
        · exact .inr (.inr (.inr (.inr ⟨hopen, hlater⟩)))
        · exact .inr (.inr (.inr (.inr ⟨hopen, hlater⟩)))

theorem Accounted.goTo (h : Accounted e st) (hrest : st.rest = []) (hreading : st.pc ≠ .reading) (hraised : st.pc ≠ .raised)
    {pc : StreamPc} (hopen : {st with pc}.isOpen = true) : Accounted e {st with pc} := by
  rcases h with h | h | h | h | ⟨-, hqueue⟩
  · exact absurd h hraised
  · exact absurd h hreading
  · exact .inr (.inr (.inl h))
  · rw [hrest] at h
    cases h
  · exact .inr (.inr (.inr (.inr ⟨hopen, hqueue⟩)))

theorem Accounted.replay (h : Accounted e st) {x : Event} {rest : List Event} (hpc : st.pc = .replaying (x :: rest)) :
    Accounted e ({st with pc := .replaying rest}.yield x) := by
  rcases h with h | h | h | h | ⟨-, hqueue⟩
  · exact absurd (hpc.symm.trans h) (by simp)
  · exact absurd (hpc.symm.trans h) (by simp)
  · exact .inr (.inr (.inl (List.mem_append_left _ h)))
  · rw [Stream.rest, hpc] at h
    rcases List.mem_cons.mp h with rfl | h
    · exact .inr (.inr (.inl (List.mem_append_right _ (List.mem_singleton_self e))))
    · exact .inr (.inr (.inr (.inl h)))
  · exact .inr (.inr (.inr (.inr ⟨rfl, hqueue⟩)))

theorem Accounted.advance (h : Accounted e st) (hs : Sound s) (hcontents : Contents s st) (hevent : e ∈ s.events)
    (hrun : st.runId = e.runId) {st' : Stream} (hst' : st.Advanced s.events s.runs st') : Accounted e st' := by
  have hopen := hst'.isOpen
  cases hst' with
  | read hpc => exact .inr (.inr (.inr (.inl (List.mem_filter.mpr ⟨hevent, by simp [hrun]⟩))))
  | replay x rest hpc => exact h.replay hpc
  | replayed hpc => exact h.goTo (by simp [Stream.rest, hpc]) (by simp [hpc]) (by simp [hpc]) rfl
  | unknown hpc hrow => exact .inl rfl
  | finished row hpc hrow hstate =>
    exact h.goTo (by simp [Stream.rest, hpc]) (by simp [hpc]) (by simp [hpc]) rfl
  | unfinished row hpc hrow hstate =>
    exact h.goTo (by simp [Stream.rest, hpc]) (by simp [hpc]) (by simp [hpc]) rfl
  | drained hpc hqueue =>
    -- Nothing is queued, so the event is among those received.
    rcases h with h | h | h | h | ⟨-, h⟩
    · exact absurd (hpc.symm.trans h) (by simp)
    · exact absurd (hpc.symm.trans h) (by simp)
    · exact .inr (.inr (.inl h))
    · simp [Stream.rest, hpc] at h
    · simp [hqueue, beforeMarker] at h
  | took item queue hpc hqueue =>
    rcases hpc with hpc | hpc
    · exact h.take hs hcontents hevent hqueue (by simp [Stream.rest, hpc]) hopen (by simp [hpc])
    · exact h.take hs hcontents hevent hqueue (by simp [Stream.rest, hpc]) hopen (by simp [hpc])

/-- What is accounted for stays so. -/
theorem Everywhere.step (h : Everywhere e s) (hs : Sound s) (hevent : e ∈ s.events) (hstep : Step z s a s') :
    Everywhere e s' := by
  have hput : ∀ runId item, ∀ (i : Nat) st', (s.put runId item)[i]? = some st' → st'.runId = e.runId → Accounted e st' := by
    intro runId item i st' hst' hrun
    obtain ⟨st, hst, ⟨-, -, rfl⟩ | ⟨-, rfl⟩⟩ := put_cases hs hst'
    · exact (h i st hst hrun).enqueue item
    · exact h i _ hst hrun
  cases hstep with
  | createRun runId authenticated => exact h
  | append e => exact h
  | commitAppend i c hc hpc =>
    unfold State.commitAppend
    split <;> exact h
  | notifyAppend i c hc hpc => exact hput _ _
  | updateRun runId state result => exact h
  | commitUpdate i u hu hpc =>
    unfold State.commitUpdate
    split <;> exact h
  | notifyUpdate i u hu hpc =>
    unfold State.notifyUpdate
    split
    · exact hput _ _
    · exact h
  | subscribe runId =>
    intro i st hst hrun
    rcases List.mem_append.mp (List.mem_of_getElem? hst) with hmem | hmem
    · obtain ⟨j, hj⟩ := List.mem_iff_getElem?.mp hmem
      exact h j st hj hrun
    · rw [List.mem_singleton] at hmem
      exact .inr (.inl (by rw [hmem]))
  | advance i st st' hst hst' =>
    intro j st₁ hst₁ hrun
    rcases List.mem_or_eq_of_mem_set (List.mem_of_getElem? hst₁) with hmem | rfl
    · obtain ⟨k, hk⟩ := List.mem_iff_getElem?.mp hmem
      exact h k st₁ hk hrun
    · have hrun' : st.runId = e.runId := hst'.runId.symm.trans hrun
      exact (h i st hst hrun').advance hs (hs.streams i st hst).toContents hevent hrun' hst'

theorem Finishing.step {runId : RunId} (h : Finishing s runId) (hstep : Step z s a s') : Finishing s' runId := by
  cases hstep with
  | createRun runId authenticated => exact h
  | append e => exact h
  | commitAppend i c hc hpc =>
    unfold State.commitAppend
    split <;> exact h
  | notifyAppend i c hc hpc => exact h
  | updateRun runId state result =>
    obtain ⟨u, hu, hfinishes⟩ := h
    exact ⟨u, List.mem_append_left _ hu, hfinishes⟩
  | commitUpdate i u hu hpc =>
    unfold State.commitUpdate
    split <;> exact Lists.exists_mem_set hu id h
  | notifyUpdate i u hu hpc => exact Lists.exists_mem_set hu id h
  | subscribe runId => exact h
  | advance i st st' hst hst' => exact h

/-- An `append` that returns leaves its event in the queue of every stream of the run:
before the run is being finished there is no end marker in it. -/
theorem everywhere_notified {c : AppendCall} (hs : Sound s) (hfinishing : ¬ Finishing s c.event.runId)
    (i : Nat) (st' : Stream) (hst' : (s.put c.event.runId (some c.event))[i]? = some st')
    (hrun : st'.runId = c.event.runId) : Accounted c.event st' := by
  obtain ⟨st, hst, ⟨hopen, hown, rfl⟩ | ⟨hother, rfl⟩⟩ := put_cases hs hst'
  · have hunmarked : none ∉ st.queue := fun hmark => hfinishing (hown ▸ (hs.streams i st hst).marked (.inl hmark))
    exact .inr (.inr (.inr (.inr ⟨hopen, mem_beforeMarker_of_unmarked hunmarked⟩)))
  · have hclosed : st'.isOpen = false := by simpa [hrun] using hother
    have hended : st'.pc ≠ .ended := fun hpc => hfinishing (hrun ▸ (hs.streams i _ hst).marked (.inr (.inr hpc)))
    refine .inl ?_
    unfold Stream.isOpen at hclosed
    split at hclosed
    · rename_i hpc
      exact absurd hpc hended
    · assumption
    · cases hclosed

/-- The call that is there after a step was there before it, or it is the one that moved. -/
theorem Kept.step (h : Kept s) (hs : Sound s) (hstep : Step z s a s') : Kept s' := by
  intro c hc hreturned hfinishing
  have hbefore : ¬ Finishing s c.event.runId := fun hf => hfinishing (hf.step hstep)
  by_cases hold : c ∈ s.appends
  · exact (h c hold hreturned hbefore).step hs (hs.committed c hold (.inr hreturned)) hstep
  · cases hstep with
    | createRun runId authenticated => exact absurd hc hold
    | append e =>
      rcases List.mem_append.mp hc with hc | hc
      · exact absurd hc hold
      · rw [List.mem_singleton] at hc
        subst hc
        cases hreturned
    | commitAppend i d hd hpc =>
      have hcase : c ∈ s.appends ∨ c = {d with pc := .raised} ∨ c = {d with pc := .notifying} := by
        unfold State.commitAppend at hc
        split at hc
        · exact (List.mem_or_eq_of_mem_set hc).imp_right .inl
        · exact (List.mem_or_eq_of_mem_set hc).imp_right .inr
      rcases hcase with hc | rfl | rfl
      · exact absurd hc hold
      · cases hreturned
      · cases hreturned
    | notifyAppend i d hd hpc =>
      rcases List.mem_or_eq_of_mem_set hc with hc | rfl
      · exact absurd hc hold
      · exact everywhere_notified hs hbefore
    | updateRun runId state result => exact absurd hc hold
    | commitUpdate i u hu hpc =>
      refine absurd ?_ hold
      unfold State.commitUpdate at hc
      split at hc <;> exact hc
    | notifyUpdate i u hu hpc => exact absurd hc hold
    | subscribe runId => exact absurd hc hold
    | advance i st st' hst hst' => exact absurd hc hold

/-! ### The stream ends -/

/-- How many steps the stream can take with what is there for it. -/
def Stream.stepsLeft (events : List Event) (st : Stream) : Nat :=
  match st.pc with
  | .reading => (events.filter (·.runId == st.runId)).length + st.queue.length + 4
  | .replaying rest => rest.length + st.queue.length + 3
  | .checking => st.queue.length + 2
  | .draining => st.queue.length + 1
  | .waiting => st.queue.length + 1
  | .ended => 0
  | .raised => 0

/-- The steps left to stream `i`. -/
def State.stepsLeft (s : State) (i : Nat) : Nat := (s.streams[i]?).elim 0 (·.stepsLeft s.events)

def Action.advances (i : Nat) : Action → Bool
  | .advance j => j == i
  | _ => false

/-- The steps that give a stream something to do. -/
def Action.feeds : Action → Bool
  | .commitAppend _ => true
  | .notifyAppend _ => true
  | .notifyUpdate _ => true
  | _ => false

theorem Stream.stepsLeft_take (st : Stream) (events : List Event) (queue : List (Option Event)) (item : Option Event)
    (hpc : st.pc = .draining ∨ st.pc = .waiting) : (st.take queue item).stepsLeft events ≤ queue.length + 1 := by
  unfold take
  split
  · exact Nat.zero_le _
  · rcases hpc with hpc | hpc
    · split <;> simp [stepsLeft, yield, hpc]
    · split <;> simp [stepsLeft, yield, hpc]

theorem Stream.stepsLeft_advance {events : List Event} {runs : Dict RunId RunRow} {st' : Stream}
    (h : st.Advanced events runs st') : st'.stepsLeft events < st.stepsLeft events := by
  cases h with
  | took item queue hpc hqueue =>
    have htake := st.stepsLeft_take events queue item hpc
    rcases hpc with hpc | hpc
    · simp only [stepsLeft, hpc, hqueue, List.length_cons] at htake ⊢
      omega
    · simp only [stepsLeft, hpc, hqueue, List.length_cons] at htake ⊢
      omega
  | replay e rest hpc =>
    simp only [stepsLeft, yield, hpc, List.length_cons]
    omega
  | _ => simp [stepsLeft, *]

theorem Stream.stepsLeft_enqueue (st : Stream) (events : List Event) (item : Option Event) :
    ({st with queue := st.queue ++ [item]}).stepsLeft events ≤ st.stepsLeft events + 1 := by
  cases hpc : st.pc <;> simp [stepsLeft, hpc] <;> omega

theorem stepsLeft_put (runId : RunId) (item : Option Event) (i : Nat) :
    ((s.put runId item)[i]?).elim 0 (·.stepsLeft s.events) ≤ s.stepsLeft i + 1 := by
  rw [getElem?_put, State.stepsLeft]
  cases s.streams[i]? with
  | none => exact Nat.zero_le _
  | some st =>
    simp only [Option.map_some, Option.elim_some]
    split
    · exact st.stepsLeft_enqueue s.events item
    · omega

/-- A step of the stream uses up one of its steps, and what is committed or notified adds
one at most. -/
theorem stepsLeft_step (hi : i < s.streams.length) (hstep : Step z s a s') :
    s'.stepsLeft i + (if a.advances i then 1 else 0) ≤ s.stepsLeft i + (if a.feeds then 1 else 0) := by
  cases hstep with
  | createRun runId authenticated => exact le_refl _
  | append e => exact le_refl _
  | commitAppend j c hc hpc =>
    show (s.commitAppend j c).stepsLeft i ≤ s.stepsLeft i + 1
    unfold State.commitAppend
    split
    · exact Nat.le_succ _
    · simp only [State.stepsLeft]
      cases s.streams[i]? with
      | none => exact Nat.zero_le _
      | some st =>
        have hfilter : ((s.events ++ [c.event]).filter (·.runId == st.runId)).length ≤
            (s.events.filter (·.runId == st.runId)).length + 1 := by
          rw [List.filter_append, List.length_append]
          exact Nat.add_le_add_left (List.length_filter_le _ _) _
        cases hpc : st.pc <;> simp only [Option.elim_some, Stream.stepsLeft, hpc] <;> omega
  | notifyAppend j c hc hpc => exact stepsLeft_put _ _ i
  | updateRun runId state result => exact le_refl _
  | commitUpdate j u hu hpc =>
    show (s.commitUpdate z j u).stepsLeft i ≤ s.stepsLeft i
    unfold State.commitUpdate
    split <;> exact le_refl _
  | notifyUpdate j u hu hpc =>
    show (s.notifyUpdate j u).stepsLeft i ≤ s.stepsLeft i + 1
    unfold State.notifyUpdate
    split
    · exact stepsLeft_put _ _ i
    · exact Nat.le_succ _
  | subscribe runId =>
    simp [State.stepsLeft, List.getElem?_append_left hi, Action.advances, Action.feeds]
  | advance j st st' hst hst' =>
    simp only [State.stepsLeft, State.setStream, Action.advances, Action.feeds]
    by_cases hij : j = i
    · subst hij
      have hlt := Stream.stepsLeft_advance hst'
      rw [List.getElem?_set_self hi, hst]
      simp only [Option.elim_some, beq_self_eq_true, if_true, Bool.false_eq_true, if_false]
      omega
    · rw [List.getElem?_set_ne hij]
      simp [hij]

theorem Stream.advance_isSome (events : List Event) (runs : Dict RunId RunRow) (hopen : st.isOpen = true)
    (hwaiting : st.pc = .waiting → st.queue ≠ []) : (st.advance events runs).isSome = true := by
  unfold advance
  unfold isOpen at hopen
  split
  · rfl
  · rfl
  · rfl
  · split <;> rfl
  · split <;> rfl
  · rename_i hpc
    split
    · rename_i hqueue
      exact absurd hqueue (hwaiting hpc)
    · rfl
  · rename_i hpc
    simp [hpc] at hopen
  · rename_i hpc
    simp [hpc] at hopen

theorem Stream.Advanced.ne_raised {events : List Event} {runs : Dict RunId RunRow} {st' : Stream}
    (h : st.Advanced events runs st') {row : RunRow} (hrow : runs.get? st.runId = some row) : st'.pc ≠ .raised := by
  cases h with
  | unknown hpc hnone =>
    rw [hrow] at hnone
    cases hnone
  | took item queue hpc hqueue =>
    unfold take
    split
    · simp
    · split <;> rcases hpc with hpc | hpc <;> simp [yield, hpc]
  | _ => simp [yield]

/-- Once the run is finished and every call that finished it has told its subscribers, a
stream of it needs nothing but its own steps to end. -/
theorem Sound.ends (h : Sound s) (hst : s.streams[i]? = some st) (hopen : st.isOpen = true)
    (hfinished : Finished s st.runId) (hnotifying : ¬ Notifying s st.runId) :
    ∃ n s' st', (machine z).run s (List.replicate n (.advance i)) = some s' ∧ s'.streams[i]? = some st' ∧
      st'.pc = .ended := by
  induction hcost : st.stepsLeft s.events using Nat.strong_induction_on generalizing s st with
  | _ cost ih =>
    have hs := h.streams i st hst
    have hready : st.pc = .waiting → st.queue ≠ [] := by
      intro hwaiting hempty
      have hmark := (hs.told hwaiting hfinished).resolve_right hnotifying
      rw [hempty] at hmark
      cases hmark
    obtain ⟨st', hst'⟩ := Option.isSome_iff_exists.mp
      (Stream.advance_isSome s.events s.runs hopen hready)
    have hstep : s.step z (.advance i) = some (s.setStream i st') := by simp [State.step, hst, hst']
    have hst' := Stream.advance_cases hst'
    have hi := (List.getElem?_eq_some_iff.mp hst).1
    have hat : (s.setStream i st').streams[i]? = some st' := List.getElem?_set_self hi
    have hrun := hst'.runId
    by_cases hopen' : st'.isOpen = true
    · have hlt : st'.stepsLeft (s.setStream i st').events < cost := hcost ▸ Stream.stepsLeft_advance hst'
      obtain ⟨n, s'', st'', hrest, hst'', hended⟩ := ih _ hlt (h.advance hst hst') hat hopen'
        (by rw [hrun]; exact hfinished) (by rw [hrun]; exact hnotifying) rfl
      refine ⟨n + 1, s'', st'', ?_, hst'', hended⟩
      rw [List.replicate_succ, Machine.run]
      exact Option.bind_eq_some_iff.mpr ⟨_, hstep, hrest⟩
    · refine ⟨1, _, st', by simp [Machine.run, machine, hstep], hat, ?_⟩
      obtain ⟨row, hrow, -⟩ := hfinished
      have hraised := hst'.ne_raised hrow
      unfold Stream.isOpen at hopen'
      split at hopen'
      · assumption
      · rename_i hpc
        exact absurd hpc hraised
      · exact absurd rfl hopen'

/-! ### The contract of a stream -/

theorem sound_initial : Sound {} := by
  refine ⟨List.nodup_nil, by simp, ?_, by simp [State.queuesOf, Dict.getD], by simp⟩
  rintro runId ⟨row, hrow, -⟩
  simp at hrow

theorem run_sound {actions : List Action} (hrun : (machine z).run {} actions = some s) : Sound s ∧ Kept s := by
  refine Machine.run_invariant_of_step (I := fun s => Sound s ∧ Kept s) ?_ ⟨sound_initial, by simp [Kept]⟩ hrun
  rintro s a s' ⟨hs, hkept⟩ hstep
  exact ⟨hs.step (step_cases hstep), hkept.step hs (step_cases hstep)⟩

/-- **Every subscriber gets every event once.** Whatever the order of the steps: a stream
yields only events of its run and none twice; when it has ended it has yielded, once, each
event whose `append` had returned while no `update_run` was finishing the run; once the
run is finished and the calls that finished it have returned, the stream ends by its own
steps; and of these there are no more than what is left for it allows. -/
theorem stream_delivers_once (z : Sanitizer) (before after : List Action) (s₁ s₂ : State)
    (hbefore : (machine z).run {} before = some s₁) (hafter : (machine z).run s₁ after = some s₂)
    (i : Nat) (st : Stream) (hst : s₂.streams[i]? = some st) :
    (∀ e ∈ st.received, e ∈ s₂.events ∧ e.runId = st.runId) ∧
    (st.received.map (·.eventId)).Nodup ∧
    (st.pc = .ended → ¬ Finishing s₁ st.runId → ∀ c ∈ s₁.appends, c.pc = .returned → c.event.runId = st.runId →
      st.received.count c.event = 1) ∧
    (st.isOpen = true → Finished s₂ st.runId → ¬ Notifying s₂ st.runId →
      ∃ n s₃ st₃, (machine z).run s₂ (List.replicate n (.advance i)) = some s₃ ∧ s₃.streams[i]? = some st₃ ∧
        st₃.pc = .ended) ∧
    (∀ more s₃, (machine z).run s₂ more = some s₃ →
      more.countP (·.advances i) + s₃.stepsLeft i ≤ s₂.stepsLeft i + more.countP (·.feeds)) := by
  obtain ⟨hs₁, hkept₁⟩ := run_sound hbefore
  have hs₂ : Sound s₂ := Machine.run_invariant_of_step (fun s a s' hs hstep => hs.step (step_cases hstep)) hs₁ hafter
  have hcontents := (hs₂.streams i st hst).toContents
  have honce : (st.received.map (·.eventId)).Nodup := by
    have h := hcontents.once
    rw [List.map_append] at h
    exact h.of_append_left
  refine ⟨fun e he => hcontents.own e (.inl he), honce, ?_, ?_, ?_⟩
  · intro hended hfinishing c hc hreturned hrun
    have hevent : c.event ∈ s₁.events := hs₁.committed c hc (.inr hreturned)
    have hevery : Sound s₂ ∧ c.event ∈ s₂.events ∧ Everywhere c.event s₂ := by
      refine Machine.run_invariant_of_step (I := fun s => Sound s ∧ c.event ∈ s.events ∧ Everywhere c.event s) ?_
        ⟨hs₁, hevent, hkept₁ c hc hreturned (hrun ▸ hfinishing)⟩ hafter
      rintro s a s' ⟨hs, he, hall⟩ hstep
      have hstep := step_cases hstep
      exact ⟨hs.step hstep, hstep.grows.1 he, hall.step hs he hstep⟩
    have hreceived : c.event ∈ st.received := by
      rcases hevery.2.2 i st hst hrun.symm with hpc | hpc | he | he | ⟨hopen, -⟩
      · exact absurd (hended.symm.trans hpc) (by simp)
      · exact absurd (hended.symm.trans hpc) (by simp)
      · exact he
      · simp [Stream.rest, hended] at he
      · simp [Stream.isOpen, hended] at hopen
    exact List.count_eq_one_of_mem (List.Nodup.of_map _ honce) hreceived
  · exact fun hopen hfinished hnotifying => hs₂.ends hst hopen hfinished hnotifying
  · intro more s₃ hmore
    refine Machine.run_count (R := fun _ _ => True) (I := fun s => i < s.streams.length) (·.stepsLeft i) (·.advances i)
      (·.feeds) ?_ ?_ (List.getElem?_eq_some_iff.mp hst).1 (Machine.obeys_trivial _ _) hmore
    · exact fun s a s' hi _ hstep => Nat.lt_of_lt_of_le hi (step_cases hstep).grows.2
    · exact fun s a s' hi _ hstep => stepsLeft_step hi (step_cases hstep)

def plainSanitizer : Sanitizer := ⟨fun _ p => p, fun _ r => r⟩

def sampleEvent (eventId : Nat) (eventType : String) : Event := {eventId, runId := 7, eventType, actor := "executor"}

/-- One event is in the history, one comes between the history and the state. -/
def betweenReads : List Action :=
  [.createRun 7 false, .append (sampleEvent 0 "first"), .commitAppend 0, .notifyAppend 0, .subscribe 7,
    .append (sampleEvent 1 "between"), .advance 0, .commitAppend 1, .advance 0, .advance 0, .notifyAppend 1]

/-- The run is finished between the state and the queue. -/
def finishedWhileWaiting : List Action :=
  [.advance 0, .updateRun 7 .finished none, .commitUpdate 0, .advance 0, .notifyUpdate 0, .advance 0]

theorem stream_delivers_once_between : ∃ s₁ s₂ st, (machine plainSanitizer).run {} betweenReads = some s₁ ∧
    (machine plainSanitizer).run s₁ finishedWhileWaiting = some s₂ ∧ s₂.streams[0]? = some st ∧
    st.received = [sampleEvent 0 "first", sampleEvent 1 "between"] ∧ st.received.count (sampleEvent 1 "between") = 1 := by
  refine ⟨_, _, _, rfl, rfl, rfl, rfl, ?_⟩
  have h := stream_delivers_once plainSanitizer betweenReads finishedWhileWaiting _ _ rfl rfl 0 _ rfl
  refine h.2.2.1 rfl ?_ ⟨sampleEvent 1 "between", .returned⟩ (List.mem_of_getElem? (i := 1) rfl) rfl rfl
  rintro ⟨u, hu, -⟩
  cases hu

end Fetech.Ledger
