import Fetech.Gateway.Recovery

/-! Finished rows.

`update_run` writes unconditionally, so a finished row stands only as long as nobody is
left who will write it. The invariant (`Custody`) gives each run that may still be written
to one coroutine, and its row is not finished. It holds in every order of steps in which a
scan finds nobody else at work and no task is interrupted between the commit of its final
row and the return of that write (`Orderly`). -/
namespace Fetech.Gateway
open Lib Coroutine

/-- The runs a coroutine may still write to. -/
def Coroutine.claims (c : Coroutine) : List RunId := c.holds ++ c.recovers

/-- Resumed by this event, the task finds its final row committed. -/
def Coroutine.finalCommitted (ev : Event) : Coroutine → Bool
  | .task _ _ .finished _ => true
  | .task _ _ (.finishing _) _ => ev.written
  | _ => false

/-- A scan is made with no run in hand or in recovery, and nothing interrupts a task
between the commit of its final row and the return of that write. -/
def Orderly (s : State) : Action → Prop
  | .resume i ev =>
    ((s.coroutines[i]?).any Coroutine.scans = true → (ev.written && !ev.interrupts) = true →
      ∀ d ∈ s.coroutines, d.claims = []) ∧
    ((s.coroutines[i]?).any (Coroutine.finalCommitted ev) = true → ev.interrupts = false)
  | _ => True

instance (s : State) : (a : Action) → Decidable (Orderly s a)
  | .resume _ _ => inferInstanceAs (Decidable (_ ∧ _))
  | .submit _ _ => isTrue trivial
  | .init => isTrue trivial
  | .close => isTrue trivial
  | .cancel _ => isTrue trivial

def Unfinished (rows : Dict RunId RunRow) (r : RunId) : Prop := ∃ row, rows.get? r = some row ∧ row.state ≠ .finished

/-- Every run that may still be written to is unfinished and one coroutine's. -/
structure Custody (s : State) : Prop where
  unfinished : ∀ (i : Nat) c r, s.coroutines[i]? = some c → r ∈ c.claims → Unfinished s.rows r
  exclusive : ∀ (i j : Nat) c d r, s.coroutines[i]? = some c → s.coroutines[j]? = some d → r ∈ c.claims → r ∈ d.claims →
    i = j
  nodup : ∀ (i : Nat) c, s.coroutines[i]? = some c → c.claims.Nodup

variable {s s' : State} {i : Nat} {c c' : Coroutine}

theorem Coroutine.Same.claims {d d' : Coroutine} (h : Same d d') : d'.claims = d.claims := by
  rw [Coroutine.claims, Coroutine.claims, h.holds, h.recovers]

theorem Coroutine.Idle.claims {d : Coroutine} (h : Idle d) : d.claims = [] := by
  rw [Coroutine.claims, h.holds, h.recovers]
  rfl

theorem Custody.framed (h : Custody s) (hrows : s'.rows = s.rows)
    (hsame : ∀ (j : Nat) d', s'.coroutines[j]? = some d' → Idle d' ∨ ∃ d, s.coroutines[j]? = some d ∧ Same d d') :
    Custody s' := by
  have hclaims : ∀ (j : Nat) d' r, s'.coroutines[j]? = some d' → r ∈ d'.claims →
      ∃ d, s.coroutines[j]? = some d ∧ r ∈ d.claims := by
    intro j d' r hd' hr
    obtain hidle | ⟨d, hd, hsame⟩ := hsame j d' hd'
    · rw [hidle.claims] at hr
      cases hr
    · exact ⟨d, hd, hsame.claims ▸ hr⟩
  refine ⟨fun j d' r hd' hr => ?_, fun j k d' e' r hd' he' hrd hre => ?_, fun j d' hd' => ?_⟩
  · obtain ⟨d, hd, hr⟩ := hclaims j d' r hd' hr
    exact hrows ▸ h.unfinished j d r hd hr
  · obtain ⟨d, hd, hrd⟩ := hclaims j d' r hd' hrd
    obtain ⟨e, he, hre⟩ := hclaims k e' r he' hre
    exact h.exclusive j k d e r hd he hrd hre
  · obtain hidle | ⟨d, hd, hsame⟩ := hsame j d' hd'
    · rw [hidle.claims]
      exact List.nodup_nil
    · rw [hsame.claims]
      exact h.nodup j d hd

/-- One coroutine has moved: what it may write now it might write before or nobody might. -/
theorem Custody.replace (h : Custody s) (hc : s.coroutines[i]? = some c)
    (hcoroutines : s'.coroutines = s.coroutines.set i c' ++ [])
    (hkept : ∀ r, r ∉ c.claims → Unfinished s.rows r → Unfinished s'.rows r)
    (hclaims : ∀ r ∈ c'.claims, Unfinished s'.rows r ∧
      (r ∈ c.claims ∨ ∀ (j : Nat) d, s.coroutines[j]? = some d → r ∉ d.claims))
    (hnodup : c'.claims.Nodup) : Custody s' := by
  have hat := replaced_cases hcoroutines
  have hothers : ∀ (j : Nat) d r, j ≠ i → s.coroutines[j]? = some d → r ∈ d.claims → r ∉ c'.claims := by
    intro j d r hj hd hr hr'
    obtain hr' | hfree := (hclaims r hr').2
    · exact hj (h.exclusive j i d c r hd hc hr hr')
    · exact hfree j d hd hr
  refine ⟨fun j d r hd hr => ?_, fun j k d e r hd he hrd hre => ?_, fun j d hd => ?_⟩
  · obtain ⟨rfl, rfl⟩ | ⟨hj, hd⟩ := hat j d hd
    · exact (hclaims r hr).1
    · exact hkept r (fun hr' => hj (h.exclusive j i d c r hd hc hr hr')) (h.unfinished j d r hd hr)
  · obtain ⟨rfl, rfl⟩ | ⟨hj, hd⟩ := hat j d hd
    · obtain ⟨rfl, rfl⟩ | ⟨hk, he⟩ := hat k e he
      · rfl
      · exact absurd hrd (hothers k e r hk he hre)
    · obtain ⟨rfl, rfl⟩ | ⟨hk, he⟩ := hat k e he
      · exact absurd hre (hothers j d r hj hd hrd)
      · exact h.exclusive j k d e r hd he hrd hre
  · obtain ⟨rfl, rfl⟩ | ⟨-, hd⟩ := hat j d hd
    · exact hnodup
    · exact h.nodup j d hd

theorem Custody.spawn (h : Custody s) (hc : s.coroutines[i]? = some c) {runId : RunId} {budget : ResourceBudget}
    (hholds : c.holds = [runId]) (hidle : Idle c') (hrows : s'.rows = s.rows)
    (hcoroutines : s'.coroutines = s.coroutines.set i c' ++ [.task runId budget .created]) : Custody s' := by
  have hclaims : ∀ d : Coroutine, d = .task runId budget .created → d.claims = [runId] := by
    rintro d rfl
    rfl
  have hclaimed : runId ∈ c.claims := List.mem_append_left _ (hholds ▸ List.mem_singleton_self runId)
  have hat := spawned_cases hidle hcoroutines
  have hothers : ∀ (j : Nat) d, j ≠ i → s.coroutines[j]? = some d → runId ∉ d.claims :=
    fun j d hj hd hr => hj (h.exclusive j i d c runId hd hc hr hclaimed)
  refine ⟨fun j d r hd hr => ?_, fun j k d e r hd he hrd hre => ?_, fun j d hd => ?_⟩
  · rw [hrows]
    obtain hidle | ⟨-, hd⟩ | ⟨-, htask⟩ := hat j d hd
    · simp [hidle.claims] at hr
    · exact h.unfinished j d r hd hr
    · rw [hclaims d htask, List.mem_singleton] at hr
      rw [hr]
      exact h.unfinished i c runId hc hclaimed
  · obtain hidle | ⟨hj, hd⟩ | ⟨hj, htask⟩ := hat j d hd
    · simp [hidle.claims] at hrd
    · obtain hidle | ⟨hk, he⟩ | ⟨-, htask⟩ := hat k e he
      · simp [hidle.claims] at hre
      · exact h.exclusive j k d e r hd he hrd hre
      · rw [hclaims e htask, List.mem_singleton] at hre
        exact absurd (hre ▸ hrd) (hothers j d hj hd)
    · obtain hidle | ⟨hk, he⟩ | ⟨hk, -⟩ := hat k e he
      · simp [hidle.claims] at hre
      · rw [hclaims d htask, List.mem_singleton] at hrd
        exact absurd (hrd ▸ hre) (hothers k e hk he)
      · exact hj.trans hk.symm
  · obtain hidle | ⟨-, hd⟩ | ⟨-, htask⟩ := hat j d hd
    · rw [hidle.claims]
      exact List.nodup_nil
    · exact h.nodup j d hd
    · rw [hclaims d htask]
      exact List.nodup_singleton _

theorem Unfinished.set {rows : Dict RunId RunRow} {r : RunId} (h : Unfinished rows r) {runId : RunId} {row : RunRow}
    (hrow : r ≠ runId ∨ row.state ≠ .finished) : Unfinished (rows.set runId row) r := by
  obtain ⟨old, hold, hstate⟩ := h
  by_cases hr : r = runId
  · exact ⟨row, by simp [hr], hrow.resolve_left fun hne => hne hr⟩
  · exact ⟨old, by simp [hr, hold], hstate⟩

theorem nodup_unfinishedRuns (s : State) : (s.unfinishedRuns.map (·.runId)).Nodup := by
  have hkeys : s.unfinishedRuns.map (·.runId) = (s.rows.entries.filter fun e => e.2.state ≠ .finished).map Prod.fst := by
    simp [State.unfinishedRuns]
  rw [hkeys]
  exact s.rows.nodup.sublist (List.filter_sublist.map _)

theorem Custody.resumed (h : Custody s) (hc : s.coroutines[i]? = some c) {ev : Event} {started : List Coroutine}
    (hscan : c.scans = true → ev = .returns → ∀ d ∈ s.coroutines, d.claims = [])
    (hfinal : c.finalCommitted ev = true → ev.interrupts = false)
    (hmove : Move s c ev s'.rows c' started) (hcoroutines : s'.coroutines = s.coroutines.set i c' ++ started) :
    Custody s' := by
  generalize hrows : s'.rows = rows at hmove
  cases hmove with
  | same _ hsame =>
    refine h.replace hc hcoroutines (hrows ▸ fun _ _ hr => hr) (fun r hr => ?_) (hsame.claims ▸ h.nodup i c hc)
    rw [hsame.claims] at hr
    exact ⟨hrows ▸ h.unfinished i c r hc hr, .inl hr⟩
  | drop _ hidle =>
    exact h.replace hc hcoroutines (hrows ▸ fun _ _ hr => hr) (by simp [hidle.claims]) (by simp [hidle.claims])
  | create runId budget _ hidle hfresh hholds hlives hrecovers =>
    have hnew : ∀ (j : Nat) d, s.coroutines[j]? = some d → runId ∉ d.claims := by
      intro j d hd hr
      obtain ⟨row, hrow, -⟩ := h.unfinished j d runId hd hr
      simp [hfresh] at hrow
    have honly : c'.claims = [runId] ∨ c'.claims = [] := by
      rw [Coroutine.claims, hrecovers, List.append_nil]
      exact hholds
    refine h.replace hc hcoroutines (fun r _ hr => hrows ▸ hr.set (.inr (by simp))) (fun r hr => ?_) ?_
    · have hr' : r = runId := by
        rcases honly with honly | honly
        · simpa [honly] using hr
        · simp [honly] at hr
      rw [hr', hrows]
      exact ⟨⟨{budget}, by simp, by simp⟩, .inr hnew⟩
    · rcases honly with honly | honly <;> simp [honly]
  | start runId row _ hrow hholds hsame =>
    refine h.replace hc hcoroutines (fun r _ hr => hrows ▸ hr.set (.inr (by simp [rewritten]))) (fun r hr => ?_)
      (hsame.claims ▸ h.nodup i c hc)
    rw [hsame.claims] at hr
    exact ⟨hrows ▸ (h.unfinished i c r hc hr).set (.inr (by simp [rewritten])), .inl hr⟩
  | final runId row result _ hrow hholds hrecovers hdone hlives hrecovers' =>
    have hnone : c'.claims = [] := by rw [Coroutine.claims, hdone, hrecovers', List.append_nil]
    refine h.replace hc hcoroutines (fun r hr hopen => hrows ▸ hopen.set (.inl ?_)) (by simp [hnone]) (by simp [hnone])
    rintro rfl
    exact hr (List.mem_append_left _ (hholds ▸ List.mem_singleton_self _))
  | disturbed runId row result budget requested _ hcode hev hwritten =>
    rw [hcode] at hfinal
    exact absurd (hfinal hwritten) (by simp [hev])
  | reopen runId budget requested _ hcode hev =>
    rw [hcode] at hfinal
    exact absurd (hfinal rfl) (by simp [hev])
  | spawn runId budget _ hholds hidle => exact h.spawn hc hholds hidle hrows hcoroutines
  | scan _ hscans hev hidle hholds hlives hrecovers =>
    have hclaims : c'.claims = s.unfinishedRuns.map (·.runId) := by
      rw [Coroutine.claims, hholds, hrecovers, List.nil_append]
    refine h.replace hc hcoroutines (hrows ▸ fun _ _ hr => hr) (fun r hr => ?_) (hclaims ▸ nodup_unfinishedRuns s)
    rw [hclaims] at hr
    refine ⟨hrows ▸ mem_unfinishedRuns hr, .inr fun j d hd => ?_⟩
    simp [hscan hscans hev d (List.mem_of_getElem? hd)]
  | recover runId row result rest _ hrow hrecovers hholds hlives hholds' hlives' hrecovers' =>
    have hclaims : c.claims = runId :: rest := by rw [Coroutine.claims, hholds, hrecovers, List.nil_append]
    have hnodup := h.nodup i c hc
    rw [hclaims, List.nodup_cons] at hnodup
    have hrest : c'.claims = rest ∨ c'.claims = [] := by
      rw [Coroutine.claims, hholds', List.nil_append]
      exact hrecovers'
    refine h.replace hc hcoroutines (fun r hr hopen => hrows ▸ hopen.set (.inl ?_)) (fun r hr => ?_) ?_
    · rintro rfl
      exact hr (hclaims ▸ List.mem_cons_self ..)
    · have hr' : r ∈ rest := by
        rcases hrest with hrest | hrest
        · exact hrest ▸ hr
        · simp [hrest] at hr
      have hclaimed : r ∈ c.claims := hclaims ▸ List.mem_cons_of_mem _ hr'
      refine ⟨hrows ▸ (h.unfinished i c r hc hclaimed).set (.inl ?_), .inl hclaimed⟩
      rintro rfl
      exact hnodup.1 hr'
    · rcases hrest with hrest | hrest
      · exact hrest ▸ hnodup.2
      · simp [hrest]

theorem Custody.step (h : Custody s) {a : Action} (hrule : Orderly s a) (hstep : step s a = some s') : Custody s' := by
  cases step_cases hstep with
  | resumed i ev c c' started hc hmove hcoroutines =>
    obtain ⟨hscan, hfinal⟩ := hrule
    refine h.resumed hc (fun hscans hev => ?_) (fun hcommitted => ?_) hmove hcoroutines
    · subst hev
      exact hscan (by simp [hc, hscans]) rfl
    · exact hfinal (by simp [hc, hcommitted])
  | framed _ hrows hsame => exact h.framed hrows hsame

/-- No step writes to a finished row. -/
theorem Custody.final_row_kept (h : Custody s) {a : Action} (hstep : Gateway.step s a = some s') {r : RunId} {row : RunRow}
    (hrow : s.rows.get? r = some row) (hstate : row.state = .finished) : s'.rows.get? r = some row := by
  cases step_cases hstep with
  | framed _ hrows _ => rw [hrows, hrow]
  | resumed i ev c c' started hc hmove hcoroutines =>
    have hother : ∀ runId row', runId ∈ c.claims → (s.rows.set runId row').get? r = some row := by
      intro runId row' hclaimed
      have hne : r ≠ runId := by
        rintro rfl
        obtain ⟨old, hold, hopen⟩ := h.unfinished i c r hc hclaimed
        rw [hrow] at hold
        cases hold
        exact hopen hstate
      rw [Dict.get?_set, if_neg hne, hrow]
    generalize hrows : s'.rows = rows at hmove
    cases hmove with
    | same _ hsame => exact hrow
    | drop _ hidle => exact hrow
    | reopen => exact hrow
    | spawn => exact hrow
    | scan => exact hrow
    | create runId budget _ hidle hfresh =>
      have hne : r ≠ runId := by
        rintro rfl
        simp [hfresh] at hrow
      rw [Dict.get?_set, if_neg hne, hrow]
    | start runId row' _ _ hholds => exact hother _ _ (List.mem_append_left _ (hholds ▸ List.mem_singleton_self _))
    | final runId row' result _ _ hholds => exact hother _ _ (List.mem_append_left _ (hholds ▸ List.mem_singleton_self _))
    | disturbed runId row' result budget requested _ hcode =>
      exact hother _ _ (List.mem_append_left _ (by rw [hcode]; exact List.mem_singleton_self _))
    | recover runId row' result rest _ _ hrecovers =>
      exact hother _ _ (List.mem_append_right _ (hrecovers ▸ List.mem_cons_self ..))

/-- **A finished row stands.** In every order of steps that is `Orderly`, once the row of a
run is committed as finished no later step changes its state or its result. -/
theorem final_rows_stand (rows : Dict RunId RunRow) (before after : List Action) (s₁ s₂ : State)
    (hbefore : machine.run {rows} before = some s₁) (hafter : machine.run s₁ after = some s₂)
    (hrule : machine.Obeys Orderly {rows} before) (hrule' : machine.Obeys Orderly s₁ after) (r : RunId) (row : RunRow)
    (hrow : s₁.rows.get? r = some row) (hstate : row.state = .finished) : s₂.rows.get? r = some row := by
  have hcustody : Custody s₁ := by
    refine Machine.run_invariant (fun s a s' h hr hstep => h.step hr hstep) ?_ hrule hbefore
    constructor <;> simp
  have hkept : Custody s₂ ∧ s₂.rows.get? r = some row := by
    refine Machine.run_invariant (I := fun s => Custody s ∧ s.rows.get? r = some row) ?_ ⟨hcustody, hrow⟩ hrule' hafter
    rintro s a s' ⟨h, hrow⟩ hr hstep
    exact ⟨h.step hr hstep, h.final_row_kept hstep hrow hstate⟩
  exact hkept.2

def sampleResult : FetchResult where
  status := .succeeded
  resources := []
  artifacts := []
  attempts := []
  capabilityOutcomes := []
  policyDecisions := []
  diagnostics := []
  provenanceEventIds := []
  remainingBudget := {}
  crawlReport := none

/-- A call initialises an empty gateway, creates its run and starts its task. -/
def submitAlone : List Action :=
  [.submit 0 {}, .resume 0 .returns, .resume 0 .returns, .resume 0 .returns, .resume 0 .returns, .resume 0 .returns,
    .resume 0 .returns]

/-- The task runs up to the commit of its final row. -/
def committed : List Action :=
  submitAlone ++ [.resume 1 .returns, .resume 1 .returns, .resume 1 .returns, .resume 1 (.executed sampleResult),
    .resume 1 .returns]

theorem final_rows_stand_undisturbed : ∃ s₁ s₂ row, machine.run {} committed = some s₁ ∧
    machine.run s₁ [.resume 1 .returns, .close, .resume 1 (.cancelled false)] = some s₂ ∧ s₁.rows.get? 0 = some row ∧
    row.state = .finished ∧ s₂.rows.get? 0 = some row :=
  ⟨_, _, _, rfl, rfl, rfl, rfl, final_rows_stand ∅ committed [.resume 1 .returns, .close, .resume 1 (.cancelled false)] _ _ rfl rfl
    (by decide) (by decide) 0 _ rfl rfl⟩

/-- The cancellation arrives between the commit and the return of the final write: its
handler replaces the result. -/
theorem cancelled_after_commit : ∃ s₁ s₂, machine.run {} committed = some s₁ ∧
    machine.run s₁ [.cancel 1, .resume 1 (.cancelled false), .resume 1 .returns, .resume 1 .returns] = some s₂ ∧
    (s₁.rows.get? 0).map (fun row => (row.state, row.result.map (·.status))) = some (.finished, some .succeeded) ∧
    (s₂.rows.get? 0).map (fun row => (row.state, row.result.map (·.status))) = some (.finished, some .failed) :=
  ⟨_, _, rfl, rfl, rfl, rfl⟩

end Fetech.Gateway
