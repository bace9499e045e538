import Fetech.Gateway.Moves

/-! Recovery and the runs of this process.

`initialize` is guarded by a flag that is set only at its end, so two calls can be in it at
once: the slower one scans for unfinished runs when the faster one has already created its
own. As long as no scan is made while a run is in hand (`ScansIdle`), recovery leaves the
live runs alone and the row of a live run is written by its own call or task only
(`live_runs_left_alone`). -/
namespace Fetech.Gateway
open Lib Coroutine

/-- The row of the run says it is finished. -/
def Finished (rows : Dict RunId RunRow) (r : RunId) : Prop := ∃ row, rows.get? r = some row ∧ row.state = .finished

/-- The call or the task of the run is under way. -/
def Live (s : State) (r : RunId) : Prop := ∃ c ∈ s.coroutines, r ∈ c.lives

/-- No scan for unfinished runs while a run is in hand. -/
def ScansIdle (s : State) : Action → Prop
  | .resume i .returns => (s.coroutines[i]?).any Coroutine.scans = true → ∀ d ∈ s.coroutines, d.holds = []
  | _ => True

instance (s : State) : (a : Action) → Decidable (ScansIdle s a)
  | .resume _ .returns => inferInstanceAs (Decidable (_ → _))
  | .resume _ (.executed _) => isTrue trivial
  | .resume _ (.raises _) => isTrue trivial
  | .resume _ (.cancelled _) => isTrue trivial
  | .submit _ _ => isTrue trivial
  | .init => isTrue trivial
  | .close => isTrue trivial
  | .cancel _ => isTrue trivial

theorem Coroutine.lives_of_holds {c : Coroutine} {r : RunId} (h : r ∈ c.holds) : r ∈ c.lives := by
  cases c with
  | init pc => cases h
  | submit runId budget pc => cases pc <;> first | exact h | cases h
  | task runId budget pc requested => cases pc <;> first | exact h | cases h
  | close pc => cases h

/-- What the runs in hand and in recovery have to do with each other and with the rows. -/
structure Apart (s : State) : Prop where
  rowed : ∀ (i : Nat) c r, s.coroutines[i]? = some c → r ∈ c.lives ∨ r ∈ c.recovers → (s.rows.get? r).isSome = true
  exclusive : ∀ (i j : Nat) c d r, s.coroutines[i]? = some c → s.coroutines[j]? = some d → r ∈ c.lives → r ∈ d.lives →
    i = j
  settled : ∀ (i : Nat) c r, s.coroutines[i]? = some c → r ∈ c.lives → r ∉ c.holds → Finished s.rows r
  apart : ∀ (i j : Nat) c d r, s.coroutines[i]? = some c → s.coroutines[j]? = some d → r ∈ c.recovers → r ∉ d.lives

variable {s s' : State} {i : Nat} {c c' : Coroutine}

theorem Apart.framed (h : Apart s) (hrows : s'.rows = s.rows)
    (hsame : ∀ (j : Nat) d', s'.coroutines[j]? = some d' → Idle d' ∨ ∃ d, s.coroutines[j]? = some d ∧ Same d d') :
    Apart s' := by
  have hlives : ∀ (j : Nat) d' r, s'.coroutines[j]? = some d' → r ∈ d'.lives →
      ∃ d, s.coroutines[j]? = some d ∧ r ∈ d.lives ∧ (r ∈ d.holds → r ∈ d'.holds) := by
    intro j d' r hd' hr
    obtain hidle | ⟨d, hd, hsame⟩ := hsame j d' hd'
    · rw [hidle.lives] at hr
      cases hr
    · exact ⟨d, hd, hsame.lives ▸ hr, fun hheld => hsame.holds ▸ hheld⟩
  have hrecovers : ∀ (j : Nat) d' r, s'.coroutines[j]? = some d' → r ∈ d'.recovers →
      ∃ d, s.coroutines[j]? = some d ∧ r ∈ d.recovers := by
    intro j d' r hd' hr
    obtain hidle | ⟨d, hd, hsame⟩ := hsame j d' hd'
    · rw [hidle.recovers] at hr
      cases hr
    · exact ⟨d, hd, hsame.recovers ▸ hr⟩
  constructor
  · intro i c r hc hr
    rw [hrows]
    rcases hr with hr | hr
    · obtain ⟨d, hd, hr, -⟩ := hlives i c r hc hr
      exact h.rowed i d r hd (.inl hr)
    · obtain ⟨d, hd, hr⟩ := hrecovers i c r hc hr
      exact h.rowed i d r hd (.inr hr)
  · intro i j c d r hc hd hrc hrd
    obtain ⟨c₀, hc₀, hrc, -⟩ := hlives i c r hc hrc
    obtain ⟨d₀, hd₀, hrd, -⟩ := hlives j d r hd hrd
    exact h.exclusive i j c₀ d₀ r hc₀ hd₀ hrc hrd
  · intro i c r hc hr hheld
    rw [hrows]
    obtain ⟨c₀, hc₀, hr, hkept⟩ := hlives i c r hc hr
    exact h.settled i c₀ r hc₀ hr fun hheld₀ => hheld (hkept hheld₀)
  · intro i j c d r hc hd hrc hrd
    obtain ⟨c₀, hc₀, hrc⟩ := hrecovers i c r hc hrc
    obtain ⟨d₀, hd₀, hrd, -⟩ := hlives j d r hd hrd
    exact h.apart i j c₀ d₀ r hc₀ hd₀ hrc hrd

/-- One coroutine has moved: what it lives for now it lived for before or is new, and what
it recovers is in nobody's hands. -/
theorem Apart.replace (h : Apart s) (hc : s.coroutines[i]? = some c) (hcoroutines : s'.coroutines = s.coroutines.set i c' ++ [])
    (hgrown : ∀ r, (s.rows.get? r).isSome = true → (s'.rows.get? r).isSome = true)
    (hkept : ∀ r, r ∉ c.holds → Finished s.rows r → Finished s'.rows r)
    (hlives : ∀ r ∈ c'.lives, r ∈ c.lives ∨ (s.rows.get? r = none ∧ (s'.rows.get? r).isSome = true))
    (hsettled : ∀ r ∈ c'.lives, r ∉ c'.holds → Finished s'.rows r)
    (hrecovers : ∀ r ∈ c'.recovers, r ∉ c'.lives ∧
      (r ∈ c.recovers ∨ ((s.rows.get? r).isSome = true ∧ ∀ (j : Nat) d, s.coroutines[j]? = some d → r ∉ d.lives))) :
    Apart s' := by
  -- A run that is new to the ledger was in nobody's hands.
  have hnew : ∀ (j : Nat) d r, s.coroutines[j]? = some d → s.rows.get? r = none → r ∉ d.lives ∧ r ∉ d.recovers := by
    intro j d r hd hnone
    refine ⟨fun hr => ?_, fun hr => ?_⟩
    · simpa [hnone] using h.rowed j d r hd (.inl hr)
    · simpa [hnone] using h.rowed j d r hd (.inr hr)
  have hat := replaced_cases hcoroutines
  have hothers : ∀ (j : Nat) d r, j ≠ i → s.coroutines[j]? = some d → r ∈ d.lives → r ∉ c'.lives := by
    intro j d r hj hd hr hr'
    obtain hr' | ⟨hnone, -⟩ := hlives r hr'
    · exact hj (h.exclusive j i d c r hd hc hr hr')
    · exact (hnew j d r hd hnone).1 hr
  constructor
  · intro j d r hd hr
    obtain ⟨rfl, rfl⟩ | ⟨-, hd⟩ := hat j d hd
    · rcases hr with hr | hr
      · obtain hr | ⟨-, hrow⟩ := hlives r hr
        · exact hgrown r (h.rowed j c r hc (.inl hr))
        · exact hrow
      · obtain hr | ⟨hrow, -⟩ := (hrecovers r hr).2
        · exact hgrown r (h.rowed j c r hc (.inr hr))
        · exact hgrown r hrow
    · exact hgrown r (h.rowed j d r hd hr)
  · intro j k d e r hd he hrd hre
    obtain ⟨rfl, rfl⟩ | ⟨hj, hd⟩ := hat j d hd
    · obtain ⟨rfl, rfl⟩ | ⟨hk, he⟩ := hat k e he
      · rfl
      · exact absurd hrd (hothers k e r hk he hre)
    · obtain ⟨rfl, rfl⟩ | ⟨hk, he⟩ := hat k e he
      · exact absurd hre (hothers j d r hj hd hrd)
      · exact h.exclusive j k d e r hd he hrd hre
  · intro j d r hd hr hheld
    obtain ⟨rfl, rfl⟩ | ⟨hj, hd⟩ := hat j d hd
    · exact hsettled r hr hheld
    · refine hkept r (fun hheldc => hj ?_) (h.settled j d r hd hr hheld)
      exact h.exclusive j i d c r hd hc hr (lives_of_holds hheldc)
  · intro j k d e r hd he hrd hre
    obtain ⟨rfl, rfl⟩ | ⟨hj, hd⟩ := hat j d hd
    · obtain ⟨rfl, rfl⟩ | ⟨hk, he⟩ := hat k e he
      · exact (hrecovers r hrd).1 hre
      · obtain hr | ⟨-, hfree⟩ := (hrecovers r hrd).2
        · exact h.apart j k c e r hc he hr hre
        · exact hfree k e he hre
    · obtain ⟨rfl, rfl⟩ | ⟨hk, he⟩ := hat k e he
      · obtain hr | ⟨hnone, -⟩ := hlives r hre
        · exact h.apart j k d c r hd hc hrd hr
        · exact (hnew j d r hd hnone).2 hrd
      · exact h.apart j k d e r hd he hrd hre

theorem isSome_set {rows : Dict RunId RunRow} {r : RunId} (runId : RunId) (row : RunRow) (h : (rows.get? r).isSome = true) :
    ((rows.set runId row).get? r).isSome = true := by
  rw [Dict.get?_set]
  split
  · rfl
  · exact h

theorem Finished.set {rows : Dict RunId RunRow} {r : RunId} (h : Finished rows r) {runId : RunId} {row : RunRow}
    (hrow : r ≠ runId ∨ row.state = .finished) : Finished (rows.set runId row) r := by
  obtain ⟨old, hold, hstate⟩ := h
  by_cases hr : r = runId
  · exact ⟨row, by simp [hr], hrow.resolve_left fun hne => hne hr⟩
  · exact ⟨old, by simp [hr, hold], hstate⟩

/-- The task takes the run over from the call. -/
theorem Apart.spawn (h : Apart s) (hc : s.coroutines[i]? = some c) {runId : RunId} {budget : ResourceBudget}
    (hholds : c.holds = [runId]) (hidle : Idle c') (hrows : s'.rows = s.rows)
    (hcoroutines : s'.coroutines = s.coroutines.set i c' ++ [.task runId budget .created]) : Apart s' := by
  have hlives : runId ∈ c.lives := lives_of_holds (hholds ▸ List.mem_singleton_self runId)
  have hat := spawned_cases hidle hcoroutines
  have hothers : ∀ (j : Nat) d, j ≠ i → s.coroutines[j]? = some d → runId ∉ d.lives :=
    fun j d hj hd hr => hj (h.exclusive j i d c runId hd hc hr hlives)
  constructor
  · intro j d r hd hr
    rw [hrows]
    obtain hidle | ⟨-, hd⟩ | ⟨-, rfl⟩ := hat j d hd
    · simp [hidle.lives, hidle.recovers] at hr
    · exact h.rowed j d r hd hr
    · rcases hr with hr | hr
      · rw [List.mem_singleton.mp hr]
        exact h.rowed i c runId hc (.inl hlives)
      · cases hr
  · intro j k d e r hd he hrd hre
    obtain hidle | ⟨hj, hd⟩ | ⟨hj, rfl⟩ := hat j d hd
    · simp [hidle.lives] at hrd
    · obtain hidle | ⟨hk, he⟩ | ⟨-, rfl⟩ := hat k e he
      · simp [hidle.lives] at hre
      · exact h.exclusive j k d e r hd he hrd hre
      · exact absurd (List.mem_singleton.mp hre ▸ hrd) (hothers j d hj hd)
    · obtain hidle | ⟨hk, he⟩ | ⟨hk, -⟩ := hat k e he
      · simp [hidle.lives] at hre
      · exact absurd (List.mem_singleton.mp hrd ▸ hre) (hothers k e hk he)
      · exact hj.trans hk.symm
  · intro j d r hd hr hheld
    rw [hrows]
    obtain hidle | ⟨-, hd⟩ | ⟨-, rfl⟩ := hat j d hd
    · simp [hidle.lives] at hr
    · exact h.settled j d r hd hr hheld
    · exact absurd hr hheld
  · intro j k d e r hd he hrd hre
    obtain hidle | ⟨-, hd⟩ | ⟨-, rfl⟩ := hat j d hd
    · simp [hidle.recovers] at hrd
    · obtain hidle | ⟨-, he⟩ | ⟨-, rfl⟩ := hat k e he
      · simp [hidle.lives] at hre
      · exact h.apart j k d e r hd he hrd hre
      · exact h.apart j i d c r hd hc hrd (List.mem_singleton.mp hre ▸ hlives)
    · cases hrd

/-- What a scan finds has a row that is not finished. -/
theorem mem_unfinishedRuns {r : RunId} (h : r ∈ s.unfinishedRuns.map (·.runId)) :
    ∃ row, s.rows.get? r = some row ∧ row.state ≠ .finished := by
  simp only [State.unfinishedRuns, List.map_map, List.mem_map, List.mem_filter] at h
  obtain ⟨⟨r', row⟩, ⟨hmem, hstate⟩, rfl⟩ := h
  exact ⟨row, (Dict.get?_eq_some_iff _ _ _).mpr hmem, by simpa using hstate⟩

theorem Apart.resumed (h : Apart s) (hc : s.coroutines[i]? = some c) {ev : Event} {started : List Coroutine}
    (hrule : c.scans = true → ev = .returns → ∀ d ∈ s.coroutines, d.holds = [])
    (hmove : Move s c ev s'.rows c' started) (hcoroutines : s'.coroutines = s.coroutines.set i c' ++ started) : Apart s' := by
  generalize hrows : s'.rows = rows at hmove
  cases hmove with
  | same _ hsame =>
    refine h.replace hc hcoroutines (hrows ▸ fun _ hr => hr) (hrows ▸ fun _ _ hr => hr) (fun r hr => .inl (hsame.lives ▸ hr))
      (fun r hr hheld => hrows ▸ ?_) fun r hr => ?_
    · exact h.settled i c r hc (hsame.lives ▸ hr) (hsame.holds ▸ hheld)
    · have hr' : r ∈ c.recovers := hsame.recovers ▸ hr
      exact ⟨fun hlives => h.apart i i c c r hc hc hr' (hsame.lives ▸ hlives), .inl hr'⟩
  | drop _ hidle =>
    exact h.replace hc hcoroutines (hrows ▸ fun _ hr => hr) (hrows ▸ fun _ _ hr => hr) (by simp [hidle.lives])
      (by simp [hidle.lives]) (by simp [hidle.recovers])
  | create runId budget _ hidle hfresh hholds hlives hrecovers =>
    refine h.replace hc hcoroutines (fun r hr => hrows ▸ isSome_set _ _ hr) (fun r _ hr => hrows ▸ hr.set (.inl ?_))
      (fun r hr => .inr ?_) (fun r hr hheld => absurd (hlives ▸ hr) hheld) (by simp [hrecovers])
    · rintro rfl
      obtain ⟨row, hrow, -⟩ := hr
      simp [hfresh] at hrow
    · have hr' : r = runId := by
        rw [hlives] at hr
        rcases hholds with hholds | hholds
        · simpa [hholds] using hr
        · simp [hholds] at hr
      rw [hr', hrows]
      exact ⟨hfresh, by simp⟩
  | start runId row _ hrow hholds hsame =>
    refine h.replace hc hcoroutines (fun r hr => hrows ▸ isSome_set _ _ hr) (fun r hheld hr => hrows ▸ hr.set (.inl ?_))
      (fun r hr => .inl (hsame.lives ▸ hr)) (fun r hr hheld => hrows ▸ ?_) fun r hr => ?_
    · rintro rfl
      exact hheld (hholds ▸ List.mem_singleton_self _)
    · have hheld' : r ∉ c.holds := hsame.holds ▸ hheld
      refine (h.settled i c r hc (hsame.lives ▸ hr) hheld').set (.inl ?_)
      rintro rfl
      exact hheld' (hholds ▸ List.mem_singleton_self _)
    · have hr' : r ∈ c.recovers := hsame.recovers ▸ hr
      exact ⟨fun hlives => h.apart i i c c r hc hc hr' (hsame.lives ▸ hlives), .inl hr'⟩
  | final runId row result _ hrow hholds hrecovers hdone hlives hrecovers' =>
    have hmem : runId ∈ c.lives := lives_of_holds (hholds ▸ List.mem_singleton_self runId)
    have honly : ∀ r ∈ c'.lives, r = runId := by
      intro r hr
      rcases hlives with hlives | hlives
      · simpa [hlives] using hr
      · simp [hlives] at hr
    refine h.replace hc hcoroutines (fun r hr => hrows ▸ isSome_set _ _ hr) (fun r _ hr => hrows ▸ hr.set (.inr rfl))
      (fun r hr => .inl (honly r hr ▸ hmem)) (fun r hr _ => hrows ▸ ?_) (by simp [hrecovers'])
    exact ⟨rewritten row .finished (some result), by simp [honly r hr], rfl⟩
  | disturbed runId row result budget requested _ hcode hev hwritten hrow hsame =>
    refine h.replace hc hcoroutines (fun r hr => hrows ▸ isSome_set _ _ hr) (fun r _ hr => hrows ▸ hr.set (.inr rfl))
      (fun r hr => .inl (hsame.lives ▸ hr)) (fun r hr hheld => hrows ▸ ?_) fun r hr => ?_
    · exact (h.settled i c r hc (hsame.lives ▸ hr) (hsame.holds ▸ hheld)).set (.inr rfl)
    · have hr' : r ∈ c.recovers := hsame.recovers ▸ hr
      exact ⟨fun hlives => h.apart i i c c r hc hc hr' (hsame.lives ▸ hlives), .inl hr'⟩
  | reopen runId budget requested _ hcode hev hholds hlives hrecovers =>
    refine h.replace hc hcoroutines (hrows ▸ fun _ hr => hr) (hrows ▸ fun _ _ hr => hr) (fun r hr => .inl ?_)
      (fun r hr hheld => absurd (hholds ▸ hlives ▸ hr) hheld) (by simp [hrecovers])
    rw [hlives] at hr
    rw [hcode]
    exact hr
  | spawn runId budget _ hholds hidle => exact h.spawn hc hholds hidle hrows hcoroutines
  | scan _ hscans hev hidle hholds hlives hrecovers =>
    refine h.replace hc hcoroutines (hrows ▸ fun _ hr => hr) (hrows ▸ fun _ _ hr => hr) (by simp [hlives]) (by simp [hlives])
      fun r hr => ?_
    rw [hrecovers] at hr
    obtain ⟨row, hrow, hstate⟩ := mem_unfinishedRuns hr
    refine ⟨by simp [hlives], .inr ⟨by rw [hrow]; rfl, fun j d hd hr => ?_⟩⟩
    -- A live run that is not in hand is finished.
    have hheld : d.holds = [] := hrule hscans hev d (List.mem_of_getElem? hd)
    obtain ⟨row', hrow', hstate'⟩ := h.settled j d r hd hr (by simp [hheld])
    rw [hrow] at hrow'
    cases hrow'
    exact hstate hstate'
  | recover runId row result rest _ hrow hrecovers hholds hlives hholds' hlives' hrecovers' =>
    refine h.replace hc hcoroutines (fun r hr => hrows ▸ isSome_set _ _ hr) (fun r _ hr => hrows ▸ hr.set (.inr rfl))
      (by simp [hlives']) (by simp [hlives']) fun r hr => ⟨by simp [hlives'], .inl ?_⟩
    rw [hrecovers]
    rcases hrecovers' with hrest | hrest
    · exact List.mem_cons_of_mem _ (hrest ▸ hr)
    · simp [hrest] at hr

theorem Apart.step (h : Apart s) {a : Action} (hrule : ScansIdle s a) (hstep : step s a = some s') : Apart s' := by
  cases step_cases hstep with
  | resumed i ev c c' started hc hmove hcoroutines =>
    refine h.resumed hc (fun hscans hev => ?_) hmove hcoroutines
    subst hev
    exact hrule (by simp [hc, hscans])
  | framed _ hrows hsame => exact h.framed hrows hsame

/-- **Recovery leaves live runs alone.** In every order of steps in which no scan for
unfinished runs is made while a run is in hand, no run under recovery is live, and the row
of a live run is written by its own call or task only. -/
theorem live_runs_left_alone (rows : Dict RunId RunRow) (actions : List Action) (s : State)
    (hrule : machine.Obeys ScansIdle {rows} actions) (hrun : machine.run {rows} actions = some s) :
    (∀ c ∈ s.coroutines, ∀ r ∈ c.recovers, ¬ Live s r) ∧
    ∀ a s' r, step s a = some s' → Live s r → s'.rows.get? r ≠ s.rows.get? r →
      ∃ i ev c, a = .resume i ev ∧ s.coroutines[i]? = some c ∧ r ∈ c.lives := by
  have hapart : Apart s := by
    refine Machine.run_invariant (fun s a s' h hr hstep => h.step hr hstep) ?_ hrule hrun
    constructor <;> simp
  have hrecovery : ∀ c ∈ s.coroutines, ∀ r ∈ c.recovers, ¬ Live s r := by
    rintro c hc r hr ⟨d, hd, hlives⟩
    obtain ⟨i, hi⟩ := List.mem_iff_getElem?.mp hc
    obtain ⟨j, hj⟩ := List.mem_iff_getElem?.mp hd
    exact hapart.apart i j c d r hi hj hr hlives
  refine ⟨hrecovery, fun a s' r hstep hlive hchanged => ?_⟩
  have hrow : (s.rows.get? r).isSome = true := by
    obtain ⟨d, hd, hr⟩ := hlive
    obtain ⟨j, hj⟩ := List.mem_iff_getElem?.mp hd
    exact hapart.rowed j d r hj (.inl hr)
  cases step_cases hstep with
  | framed _ hrows _ => exact absurd (congrArg (·.get? r) hrows) hchanged
  | resumed i ev c c' started hc hmove hcoroutines =>
    -- Only the row written differs.
    have hwritten : ∀ runId row, s'.rows = s.rows.set runId row → r = runId := by
      intro runId row hrows
      by_contra hne
      exact hchanged (by rw [hrows, Dict.get?_set, if_neg hne])
    have hown : c.holds = [r] → ∃ i' ev' d, Action.resume i ev = .resume i' ev' ∧ s.coroutines[i']? = some d ∧ r ∈ d.lives :=
      fun hholds => ⟨i, ev, c, rfl, hc, lives_of_holds (hholds ▸ List.mem_singleton_self r)⟩
    generalize hrows : s'.rows = rows' at hmove
    cases hmove with
    | same _ hsame => exact absurd (congrArg (·.get? r) hrows) hchanged
    | drop _ hidle => exact absurd (congrArg (·.get? r) hrows) hchanged
    | reopen => exact absurd (congrArg (·.get? r) hrows) hchanged
    | spawn => exact absurd (congrArg (·.get? r) hrows) hchanged
    | scan => exact absurd (congrArg (·.get? r) hrows) hchanged
    | create runId budget _ hidle hfresh =>
      rw [hwritten _ _ hrows, hfresh] at hrow
      cases hrow
    | start runId row _ _ hholds =>
      obtain rfl := hwritten _ _ hrows
      exact hown hholds
    | final runId row result _ _ hholds =>
      obtain rfl := hwritten _ _ hrows
      exact hown hholds
    | disturbed runId row result budget requested _ hcode =>
      obtain rfl := hwritten _ _ hrows
      exact hown (by rw [hcode]; rfl)
    | recover runId row result rest _ _ hrecovers =>
      obtain rfl := hwritten _ _ hrows
      have hr : r ∈ c.recovers := hrecovers ▸ List.mem_cons_self ..
      exact absurd hlive (hrecovery c (List.mem_of_getElem? hc) r hr)

/-- A run that an earlier process left unfinished. -/
def leftRows : Dict RunId RunRow := (∅ : Dict RunId RunRow).set 7 {state := .running}

/-- Two calls find it at once: the first finalises it and creates its own run while the second has yet to. -/
def bothRecover : List Action :=
  [.submit 0 {}, .submit 1 {}, .resume 0 .returns, .resume 1 .returns, .resume 0 .returns, .resume 1 .returns,
    .resume 0 .returns, .resume 0 .returns, .resume 0 .returns, .resume 0 .returns, .resume 0 .returns]

theorem live_runs_left_alone_submit : ∃ s, machine.run {rows := leftRows} bothRecover = some s ∧ Live s 0 ∧
    (∃ c ∈ s.coroutines, 7 ∈ c.recovers) ∧ ∀ c ∈ s.coroutines, ∀ r ∈ c.recovers, ¬ Live s r := by
  have hhands : (machine.run {rows := leftRows} bothRecover).any (fun s =>
      (s.coroutines.any fun c => c.lives.contains 0) && s.coroutines.any fun c => c.recovers.contains 7) = true := by
    decide +kernel
  obtain ⟨s, hrun, hboth⟩ := (Option.any_eq_true _ _).mp hhands
  simp only [Bool.and_eq_true, List.any_eq_true, List.contains_iff_mem] at hboth
  exact ⟨s, hrun, hboth.1, hboth.2, (live_runs_left_alone leftRows bothRecover s (by decide +kernel) hrun).1⟩

/-- Two calls at once: the second scans when the first has created its run. -/
def slowerScan : List Action :=
  [.submit 0 {}, .submit 1 {}, .resume 0 .returns, .resume 1 .returns, .resume 0 .returns, .resume 0 .returns,
    .resume 0 .returns, .resume 1 .returns, .resume 1 .returns, .resume 1 .returns, .resume 0 .returns, .resume 0 .returns]

/-- The first call's run is finalised as interrupted, and its task is about to start. -/
theorem live_run_marked_interrupted : ∃ s, machine.run {} slowerScan = some s ∧ Live s 0 ∧
    (s.rows.get? 0).map (fun row => (row.state, (row.result.map (·.diagnostics.map (·.code))).getD [])) =
      some (.finished, ["run_interrupted"]) := by
  refine ⟨_, rfl, ⟨.task 0 {} .created, List.mem_of_getElem? (i := 2) rfl, List.mem_singleton_self 0⟩, rfl⟩

end Fetech.Gateway
