import Fetech.Executor.RuntimeEvents

/-! The order in which branches finish does not show.

Branches of a batch share nothing: each works on a copy of the context. What a branch ends
with is therefore a function of what it itself went through, its own steps in their order
and whether the deadline had passed at each; of the rest of the run only the number of its
`attempt.started` comes in, and no step reads that. The batch is merged in plan order, so
two runs whose branches went through the same agree on everything but the ledger. -/
namespace Fetech.Executor

/-! ### What a merge makes of a list -/

/-- The list before, followed by what each branch appended to its copy, in plan order. -/
def Merges {α : Type} (copy : List α → Prop) (before : List α) (branches : List (List α)) (after : List α) : Prop :=
  ∃ added : List (List α),
    List.Forall₂ (fun branch own => ∃ history, copy history ∧ branch = history ++ own) branches added ∧
    after = before ++ added.flatten

/-- A merged context. The copy of a list is the list before, except that a branch may have
rewritten attempts of its copy in their places. -/
structure Merged (before : ExecutionContext) (branches : List ExecutionContext) (after : ExecutionContext) : Prop where
  resources : Merges (· = before.resources) before.resources (branches.map (·.resources)) after.resources
  artifacts : Merges (· = before.artifacts) before.artifacts (branches.map (·.artifacts)) after.artifacts
  attempts : Merges (·.length = before.attempts.length) before.attempts (branches.map (·.attempts)) after.attempts
  outcomes : Merges (· = before.capabilityOutcomes) before.capabilityOutcomes (branches.map (·.capabilityOutcomes))
    after.capabilityOutcomes
  decisions : Merges (· = before.policyDecisions) before.policyDecisions (branches.map (·.policyDecisions))
    after.policyDecisions
  diagnostics : Merges (· = before.diagnostics) before.diagnostics (branches.map (·.diagnostics)) after.diagnostics
  events : Merges (· = before.pendingEvents) before.pendingEvents (branches.map (·.pendingEvents)) after.pendingEvents
  accepted : after.accepted = (before.accepted || branches.any (·.accepted))

theorem merges_drop {α : Type} {copy : List α → Prop} {before : List α} {branches : List (List α)}
    (h : ∀ branch ∈ branches, copy (branch.take before.length)) :
    Merges copy before branches (before ++ (branches.map (·.drop before.length)).flatten) := by
  refine ⟨_, ?_, rfl⟩
  rw [List.forall₂_map_right_iff, List.forall₂_same]
  exact fun branch hbranch => ⟨_, h branch hbranch, (List.take_append_drop _ _).symm⟩

/-- A list that every branch only appended to is merged so. -/
theorem mergeAll_merges {α : Type} (field : ExecutionContext → List α) {ctx : ExecutionContext}
    {branches : List ExecutionContext} {copy : List α → Prop}
    (hmerge : ∀ merged branch, field (mergeParallelContext (.capture ctx) merged branch) =
      field merged ++ (field branch).drop (field ctx).length)
    (hcopy : ∀ branch ∈ branches, copy ((field branch).take (field ctx).length)) :
    Merges copy (field ctx) (branches.map field) (field (mergeAll (.capture ctx) ctx branches)) := by
  rw [mergeAll_list field _ _ hmerge]
  have hcopies : ∀ branch ∈ branches.map field, copy (branch.take (field ctx).length) := by
    intro branch hbranch
    obtain ⟨b, hb, rfl⟩ := List.mem_map.mp hbranch
    exact hcopy b hb
  have h := merges_drop hcopies
  rw [List.map_map] at h
  exact h

theorem mergeAll_accepted (baseline : ContextLengths) (ctx : ExecutionContext) (branches : List ExecutionContext) :
    (mergeAll baseline ctx branches).accepted = (ctx.accepted || branches.any (·.accepted)) := by
  induction branches generalizing ctx with
  | nil => exact (Bool.or_false _).symm
  | cons branch rest ih =>
    rw [List.any_cons, ← Bool.or_assoc]
    exact ih (mergeParallelContext baseline ctx branch)

/-- **Merging copies that have grown.** -/
theorem mergeAll_merged {ctx : ExecutionContext} {branches : List ExecutionContext}
    (h : ∀ branch ∈ branches, ∃ budget, (withBudget ctx budget).Grows branch) :
    Merged ctx branches (mergeAll (.capture ctx) ctx branches) := by
  have htake : ∀ {α : Type} {before after : List α}, before <+: after → after.take before.length = before := by
    rintro α before _ ⟨more, rfl⟩
    exact List.take_left
  constructor
  · refine mergeAll_merges (·.resources) (fun _ _ => rfl) fun branch hbranch => ?_
    obtain ⟨budget, hgrows⟩ := h branch hbranch
    exact htake hgrows.resources
  · refine mergeAll_merges (·.artifacts) (fun _ _ => rfl) fun branch hbranch => ?_
    obtain ⟨budget, hgrows⟩ := h branch hbranch
    exact htake hgrows.artifacts
  · refine mergeAll_merges (·.attempts) (fun _ _ => rfl) fun branch hbranch => ?_
    obtain ⟨budget, hgrows⟩ := h branch hbranch
    exact List.length_take_of_le hgrows.attempts
  · refine mergeAll_merges (·.capabilityOutcomes) (fun _ _ => rfl) fun branch hbranch => ?_
    obtain ⟨budget, hgrows⟩ := h branch hbranch
    exact htake hgrows.outcomes
  · refine mergeAll_merges (·.policyDecisions) (fun _ _ => rfl) fun branch hbranch => ?_
    obtain ⟨budget, hgrows⟩ := h branch hbranch
    exact htake hgrows.decisions
  · refine mergeAll_merges (·.diagnostics) (fun _ _ => rfl) fun branch hbranch => ?_
    obtain ⟨budget, hgrows⟩ := h branch hbranch
    exact htake hgrows.diagnostics
  · refine mergeAll_merges (·.pendingEvents) (fun _ _ => rfl) fun branch hbranch => ?_
    obtain ⟨budget, hgrows⟩ := h branch hbranch
    exact htake hgrows.events
  · exact mergeAll_accepted _ _ _

/-! ### A branch against its own steps -/

/-- The task as if its `attempt.started` had this id. -/
def Task.renumber (k : Nat) (t : Task) : Task := {t with eventId := k}

/-- Two tasks that differ in nothing but that id. -/
def Task.Alike (t u : Task) : Prop := t.renumber 0 = u.renumber 0

section
variable {e : Engine} {plan : FetchPlan} {t u : Task}

theorem call_renumber (k n : Nat) : (t.renumber k).call e n = (t.call e n).renumber k := by
  unfold Task.call
  rw [apply_ite (Task.renumber k)]
  rfl

theorem caught_renumber (k n : Nat) (err : AdapterError) :
    (t.renumber k).caught e n err = (t.caught e n err).renumber k := by
  unfold Task.caught
  rw [apply_ite (Task.renumber k), apply_ite (Task.renumber k), ← call_renumber]
  rfl

theorem start_renumber (k : Nat) : (t.renumber k).start e = (t.start e).renumber k := by
  unfold Task.start
  rw [apply_ite (Task.renumber k)]
  rfl

theorem interrupt_renumber (k : Nat) : (t.renumber k).interrupt e = (t.interrupt e).renumber k := by
  unfold Task.interrupt
  rw [apply_ite (Task.renumber k)]
  rfl

theorem flushFrom_renumber (k i : Nat) (exit : Exit) :
    (t.renumber k).flushFrom i exit = (t.flushFrom i exit).renumber k := by
  unfold Task.flushFrom
  rw [apply_ite (Task.renumber k)]
  cases exit <;> rfl

/-- A task enters its adapter under any number alike, if the deadline has passed or not alike. -/
theorem enter_renumber {elapsed elapsed' : ℚ} {id id' : Nat} (k : Nat)
    (hlate : plan.request.budget.deadlineSeconds ≤ elapsed ↔ plan.request.budget.deadlineSeconds ≤ elapsed') :
    ((t.renumber k).enter e plan elapsed' id').Alike (t.enter e plan elapsed id) := by
  unfold Task.Alike Task.enter Task.admitted
  cases happroval : enforceApproval e plan t.node with
  | some err =>
    have hopened : ∀ u n, (Task.opened n u).node = u.node := fun _ _ => rfl
    simp only [hopened, show (t.renumber k).node = t.node from rfl, happroval]
    rfl
  | none =>
    have hopened : ∀ u n, (Task.opened n u).node = u.node := fun _ _ => rfl
    simp only [hopened, show (t.renumber k).node = t.node from rfl, happroval, sub_nonpos, ← hlate]
    split
    · rfl
    · rw [← call_renumber, ← call_renumber]
      rfl

/-- **A step does not depend on the number**, nor on the clock beyond the deadline. -/
theorem step_renumber {elapsed elapsed' : ℚ} {id id' : Nat} (k : Nat) (ev : TaskEvent)
    (hlate : plan.request.budget.deadlineSeconds ≤ elapsed ↔ plan.request.budget.deadlineSeconds ≤ elapsed') :
    ((t.renumber k).step e plan elapsed' id' ev).map (Task.renumber 0) =
      (t.step e plan elapsed id ev).map (Task.renumber 0) := by
  have hcongr : ∀ {v w : Task}, v = w.renumber k → (some v).map (Task.renumber 0) = (some w).map (Task.renumber 0) := by
    intro v w h
    rw [h]
    rfl
  obtain ⟨node, ctx, pc, n, attempts, outcomes, events, requested, delivered, expired, fate, started⟩ := t
  -- Most pairs of a place and an event are no step, or set fields only.
  cases requested <;> cases ev <;> cases pc <;> try rfl
  case false.resume.created => exact hcongr (start_renumber k)
  case false.resume.starting => exact congrArg some (enter_renumber k hlate)
  case false.resume.backoff i => exact hcongr (call_renumber k (i + 1))
  case false.resume.handling => exact hcongr (flushFrom_renumber k _ _)
  case false.resume.cancelHandling => exact hcongr (flushFrom_renumber k _ _)
  case false.resume.flushing => exact hcongr (flushFrom_renumber k _ _)
  case false.returns.calling =>
    exact hcongr (flushFrom_renumber (t := ⟨node, ctx, _, n, attempts, outcomes, events, false, delivered, expired,
      .returned, started⟩) k _ _)
  case false.raises.calling => exact hcongr (caught_renumber k _ _)
  case false.expire.calling =>
    show Option.map _ (ite _ _ _) = Option.map _ (ite _ _ _)
    by_cases hd : plan.request.budget.deadlineSeconds ≤ elapsed ∧ (!expired) = true
    · rw [if_pos hd, if_pos ⟨hlate.mp hd.1, hd.2⟩]
      rfl
    · rw [if_neg hd, if_neg fun h => hd ⟨hlate.mpr h.1, h.2⟩]
  case false.expire.backoff =>
    show Option.map _ (ite _ _ _) = Option.map _ (ite _ _ _)
    by_cases hd : plan.request.budget.deadlineSeconds ≤ elapsed
    · rw [if_pos hd, if_pos (hlate.mp hd)]
      exact hcongr (interrupt_renumber k)
    · rw [if_neg hd, if_neg fun h => hd (hlate.mpr h)]
  case false.interrupted.calling =>
    show Option.map _ (if (delivered || expired) = true then _ else none) =
      Option.map _ (if (delivered || expired) = true then _ else none)
    by_cases hd : (delivered || expired) = true
    · rw [if_pos hd, if_pos hd]
      exact hcongr (interrupt_renumber k)
    · rw [if_neg hd, if_neg hd]
  case true.deliver.handling =>
    exact hcongr (flushFrom_renumber (t := ⟨node, ctx, _, n, attempts, outcomes, events, false, delivered, expired,
      fate, started⟩) k _ _)

theorem Task.Alike.eq_renumber {t u : Task} (h : t.Alike u) : u = t.renumber u.eventId := by
  cases t
  cases u
  simp_all [Task.Alike, Task.renumber]

theorem Task.Alike.step {t' u' : Task} (h : t.Alike u) {elapsed elapsed' : ℚ} {id id' : Nat} {ev : TaskEvent}
    (hlate : plan.request.budget.deadlineSeconds ≤ elapsed ↔ plan.request.budget.deadlineSeconds ≤ elapsed')
    (ht : t.step e plan elapsed id ev = some t') (hu : u.step e plan elapsed' id' ev = some u') : t'.Alike u' := by
  have hstep : ((t.renumber u.eventId).step e plan elapsed' id' ev).map (Task.renumber 0) =
      (t.step e plan elapsed id ev).map (Task.renumber 0) := step_renumber u.eventId ev hlate
  rw [← h.eq_renumber, ht, hu] at hstep
  exact (Option.some.inj hstep).symm

/-- A task by itself: each action is a reading of the clock, the length of the ledger and an event. -/
def taskMachine (e : Engine) (plan : FetchPlan) : Lib.Machine Task (ℚ × Nat × TaskEvent) where
  step t a := t.step e plan a.1 a.2.1 a.2.2

/-- What a task goes through in a step: whether the deadline has passed, and the event. -/
def experience (plan : FetchPlan) (elapsed : ℚ) (ev : TaskEvent) : Bool × TaskEvent :=
  (decide (plan.request.budget.deadlineSeconds ≤ elapsed), ev)

/-- **Tasks that go through the same end alike.** -/
theorem Task.Alike.run {t' u' : Task} (h : t.Alike u) {trace trace' : List (ℚ × Nat × TaskEvent)}
    (hsame : trace.map (fun a => experience plan a.1 a.2.2) = trace'.map fun a => experience plan a.1 a.2.2)
    (ht : (taskMachine e plan).run t trace = some t') (hu : (taskMachine e plan).run u trace' = some u') :
    t'.Alike u' := by
  induction trace generalizing t u trace' with
  | nil =>
    rw [List.map_nil, eq_comm, List.map_eq_nil_iff] at hsame
    subst hsame
    cases ht
    cases hu
    exact h
  | cons a rest ih =>
    cases trace' with
    | nil => cases hsame
    | cons a' rest' =>
      obtain ⟨hfirst, hrest⟩ := List.cons_eq_cons.mp hsame
      obtain ⟨hlate, hev⟩ := Prod.mk.inj hfirst
      obtain ⟨t₁, ht₁, ht⟩ := Lib.Machine.run_cons ht
      obtain ⟨u₁, hu₁, hu⟩ := Lib.Machine.run_cons hu
      have hstep : u.step e plan a'.1 a'.2.1 a.2.2 = some u₁ := by rw [hev]; exact hu₁
      exact ih (h.step (decide_eq_decide.mp hlate) ht₁ hstep) hrest ht hu

end

/-! ### A batch under way -/

/-- No branch is cancelled. -/
def CancelsNone : Discipline where
  task _ _ _ := True
  cancel _ := False

instance (q : ℚ) (t : Task) (ev : TaskEvent) : Decidable (CancelsNone.task q t ev) :=
  inferInstanceAs (Decidable True)

instance (t : Task) : Decidable (CancelsNone.cancel t) := inferInstanceAs (Decidable False)

/-- What branch `i` goes through in these actions, the clock starting at `elapsed`. -/
def experiences (plan : FetchPlan) (i : Nat) : ℚ → List Action → List (Bool × TaskEvent)
  | _, [] => []
  | elapsed, .tick d :: rest => experiences plan i (elapsed + d) rest
  | elapsed, .branch j ev :: rest =>
    if j = i then experience plan elapsed ev :: experiences plan i elapsed rest else experiences plan i elapsed rest
  | elapsed, _ :: rest => experiences plan i elapsed rest

/-- The state while a batch that has cancelled nobody is under way. -/
structure Batching (s : State) (b : Batch) : Prop where
  phase : s.phase = .batch b
  keeps : b.cancelling = false

/-- Branch by branch, what one batch has become after these actions. -/
structure Ran (e : Engine) (plan : FetchPlan) (elapsed : ℚ) (actions : List Action) (b b' : Batch) : Prop where
  baseline : b'.baseline = b.baseline
  length : b'.branches.length = b.branches.length
  branches : ∀ i br, b.branches[i]? = some br → ∃ br' trace, b'.branches[i]? = some br' ∧
    (taskMachine e plan).run br.task trace = some br'.task ∧
    trace.map (fun a => experience plan a.1 a.2.2) = experiences plan i elapsed actions

section
variable {e : Engine} {plan : FetchPlan}

/-- One step of a batch that cancels nobody and is not joined. -/
theorem batching_step {s s' : State} {b : Batch} {a : Action} (hs : Batching s b) (hjoin : a ≠ .join)
    (hrule : CancelsNone.rule s a) (h : s.step e plan a = some s') :
    ∃ b', Batching s' b' ∧ s'.locals = s.locals ∧
      ((∃ d, a = .tick d ∧ s'.elapsed = s.elapsed + d ∧ b' = b) ∨
      (∃ i ev br t', a = .branch i ev ∧ s'.elapsed = s.elapsed ∧ b.branches[i]? = some br ∧
        br.task.step e plan s.elapsed s.ledger.length ev = some t' ∧
        b' = {b with branches := b.branches.set i {br with task := t'}}) ∨
      (a = .collect ∧ s'.elapsed = s.elapsed ∧ b' = {b with branches := b.branches.map Branch.collect})) := by
  obtain ⟨hphase, hkeeps⟩ := hs
  cases a with
  | tick d =>
    simp only [State.step] at h
    split at h
    · cases h
      exact ⟨b, ⟨hphase, hkeeps⟩, rfl, .inl ⟨d, rfl, rfl, rfl⟩⟩
    · cases h
  | advance =>
    rw [State.step, hphase] at h
    cases h
  | node ev =>
    rw [State.step, hphase] at h
    cases h
  | branch i ev =>
    rw [State.step, hphase] at h
    obtain ⟨br, hbr, h⟩ := Option.bind_eq_some_iff.mp h
    obtain ⟨t', ht, h⟩ := Option.bind_eq_some_iff.mp h
    cases h
    exact ⟨_, ⟨rfl, hkeeps⟩, rfl, .inr (.inl ⟨i, ev, br, t', rfl, rfl, hbr, ht, rfl⟩)⟩
  | collect =>
    rw [State.step, hphase] at h
    obtain ⟨b', hb', rfl⟩ := Option.map_eq_some_iff.mp h
    obtain ⟨-, -, ⟨rfl, -⟩ | ⟨hlosers, reason, rfl⟩⟩ := collect_cases hb'
    · exact ⟨_, ⟨rfl, hkeeps⟩, rfl, .inr (.inr ⟨rfl, rfl, rfl⟩)⟩
    · -- The batch cancels losers only if one of its branches is still pending.
      exfalso
      unfold Batch.collect at hb'
      split at hb'
      · cases hb'
      · dsimp only at hb'
        split at hb'
        · rename_i hpending
          rw [Bool.and_eq_true, List.any_eq_true] at hpending
          obtain ⟨-, br, hbr, hnone⟩ := hpending
          exact hrule b (by rw [hphase]; rfl) hlosers br hbr hnone
        · have hcancelling := congrArg (Option.map Batch.cancelling) hb'
          rw [Option.map_some, Option.map_some, hkeeps] at hcancelling
          cases hcancelling
  | join => exact absurd rfl hjoin

/-- **A batch's branches run each by itself.** -/
theorem batching_run {s s' : State} {b : Batch} {actions : List Action} (hs : Batching s b)
    (hjoin : ∀ a ∈ actions, a ≠ .join) (hobeys : (machine e plan).Obeys CancelsNone.rule s actions)
    (h : (machine e plan).run s actions = some s') :
    ∃ b', Batching s' b' ∧ s'.locals = s.locals ∧ Ran e plan s.elapsed actions b b' := by
  induction actions generalizing s b with
  | nil =>
    cases h
    exact ⟨b, hs, rfl, rfl, rfl, fun i br hbr => ⟨br, [], hbr, rfl, rfl⟩⟩
  | cons a rest ih =>
    obtain ⟨t, ht, hrest⟩ := Lib.Machine.run_cons h
    obtain ⟨b₁, hb₁, hlocals, hcases⟩ := batching_step hs (hjoin a List.mem_cons_self) hobeys.1 ht
    obtain ⟨b', hb', hlocals', hran⟩ := ih hb₁ (fun a ha => hjoin a (List.mem_cons_of_mem _ ha)) (hobeys.2 t ht) hrest
    refine ⟨b', hb', hlocals'.trans hlocals, ?_⟩
    obtain ⟨d, rfl, helapsed, rfl⟩ | ⟨j, ev, br, u, rfl, helapsed, hbr, hu, rfl⟩ | ⟨rfl, helapsed, rfl⟩ := hcases
    · rw [helapsed] at hran
      exact ⟨hran.baseline, hran.length, hran.branches⟩
    · rw [helapsed] at hran
      refine ⟨hran.baseline, by rw [hran.length, List.length_set], fun i br' hbr' => ?_⟩
      by_cases hij : j = i
      · subst hij
        rw [hbr] at hbr'
        cases hbr'
        have hset : (b.branches.set j {br with task := u})[j]? = some {br with task := u} :=
          List.getElem?_set_self (List.getElem?_eq_some_iff.mp hbr).1
        obtain ⟨br', trace, hget, hrun, htrace⟩ := hran.branches j _ hset
        refine ⟨br', (s.elapsed, s.ledger.length, ev) :: trace, hget, ?_, ?_⟩
        · rw [Lib.Machine.run]
          simp only [taskMachine, hu]
          exact hrun
        · rw [List.map_cons, htrace, experiences, if_pos rfl]
      · have hset : (b.branches.set j {br with task := u})[i]? = some br' := by
          rw [List.getElem?_set_ne hij]
          exact hbr'
        obtain ⟨br', trace, hget, hrun, htrace⟩ := hran.branches i _ hset
        exact ⟨br', trace, hget, hrun, by rw [htrace, experiences, if_neg hij]⟩
    · rw [helapsed] at hran
      refine ⟨hran.baseline, by rw [hran.length, List.length_map], fun i br hbr => ?_⟩
      have hcollected : (b.branches.map Branch.collect)[i]? = some br.collect := by
        rw [List.getElem?_map, hbr]
        rfl
      obtain ⟨br', trace, hget, hrun, htrace⟩ := hran.branches i _ hcollected
      exact ⟨br', trace, hget, hrun, htrace⟩

end

/-! ### States without numbers -/

def Branch.erase (br : Branch) : Branch := {br with task := br.task.renumber 0}

def Batch.erase (b : Batch) : Batch := {b with branches := b.branches.map Branch.erase}

/-- The phase without the ids of its tasks. What a run that is over returned is not kept. -/
def Phase.erase : Phase → Phase
  | .looping => .looping
  | .single t => .single (t.renumber 0)
  | .batch b => .batch b.erase
  | .returned _ => .raised []
  | .raised _ => .raised []

/-- Two states that differ in the ledger, the ids in it and the clock. -/
structure State.Alike (s u : State) : Prop where
  locals : s.locals = u.locals
  phase : s.phase.erase = u.phase.erase

section
variable {e : Engine} {plan : FetchPlan} {p : Phase} {b : Batch} {t : Task}

theorem Phase.looping_of_erase (h : p.erase = .looping) : p = .looping := by
  cases p with
  | looping => rfl
  | _ => cases h

theorem Phase.single_of_erase (h : p.erase = (Phase.single t).erase) : ∃ u, p = .single u ∧ u.Alike t := by
  cases p with
  | single u => exact ⟨u, rfl, Phase.single.inj h⟩
  | _ => cases h

theorem Phase.batch_of_erase (h : p.erase = (Phase.batch b).erase) : ∃ b', p = .batch b' ∧ b'.erase = b.erase := by
  cases p with
  | batch b' => exact ⟨b', rfl, Phase.batch.inj h⟩
  | _ => cases h

theorem erase_joinBatch (l : Locals) (b : Batch) : l.joinBatch b.erase = l.joinBatch b := by
  unfold Locals.joinBatch Batch.erase
  simp only [List.foldl_map, List.map_map, List.length_map, List.any_map]
  rfl

theorem erase_settle (reason : String) (br : Branch) : br.erase.settle reason = (br.settle reason).erase := by
  unfold Branch.settle
  rw [apply_ite Branch.erase]
  rfl

theorem erase_collect (b : Batch) : b.erase.collect = b.collect.map Batch.erase := by
  have hany : ∀ P : Branch → Bool, b.erase.branches.any P = b.branches.any (P ∘ Branch.erase) := fun P => List.any_map
  have hwinner : b.erase.hasWinner = b.hasWinner := hany _
  have hlosers : b.erase.cancelsLosers = b.cancelsLosers := by
    rw [Batch.cancelsLosers, Batch.cancelsLosers, hwinner, hany]
    rfl
  unfold Batch.collect
  rw [hany, hany, hwinner, hlosers, apply_ite (Option.map Batch.erase)]
  dsimp only
  rw [apply_ite (Option.map Batch.erase), Option.map_some, Option.map_some, Batch.erase, Batch.erase, Batch.erase]
  have hsettle : ∀ reason, Branch.settle reason ∘ Branch.erase = Branch.erase ∘ Branch.settle reason := fun reason =>
    funext (erase_settle reason)
  simp only [List.map_map, hsettle]
  rfl

theorem turn_alike {s u s' u' : State} (h : s.Alike u) (hs : s.phase = .looping) (hu : u.phase = .looping)
    (hs' : s.turn plan = some s') (hu' : u.turn plan = some u') : s'.Alike u' := by
  have hlocals := h.locals
  have hfinish : (s.finish plan).Alike (u.finish plan) := by
    refine ⟨hlocals, ?_⟩
    show Phase.erase (if _ then _ else _) = Phase.erase (if _ then _ else _)
    split <;> split <;> rfl
  have hskip : ∀ l, State.Alike {s with locals := l} {u with locals := l} := fun l => ⟨rfl, by rw [hs, hu]⟩
  simp only [State.turn, ← hlocals] at hs' hu'
  cases hnode : plan.nodes[s.locals.nodeIndex]? with
  | none =>
    rw [hnode] at hs' hu'
    cases hs'
    cases hu'
    exact hfinish
  | some node =>
    simp only [hnode] at hs' hu'
    by_cases hstopped : s.locals.stopped = true
    · rw [if_pos hstopped] at hs' hu'
      cases hs'
      cases hu'
      exact hfinish
    rw [if_neg hstopped] at hs' hu'
    by_cases hready : (!ready s.locals.completed node) = true
    · rw [if_pos hready] at hs' hu'
      cases hs'
      cases hu'
      exact hskip _
    rw [if_neg hready] at hs' hu'
    by_cases hfallback : (s.locals.context.accepted && isFallback node) = true
    · rw [if_pos hfallback] at hs' hu'
      cases hs'
      cases hu'
      exact hskip _
    rw [if_neg hfallback] at hs' hu'
    by_cases hmany : 1 < (s.locals.batchAt plan node).length
    · rw [if_pos hmany] at hs' hu'
      obtain ⟨contexts, hc, hnew⟩ := Option.bind_eq_some_iff.mp hs'
      obtain ⟨contexts', hc', hnew'⟩ := Option.bind_eq_some_iff.mp hu'
      rw [hc] at hc'
      cases hc'
      cases hnew
      cases hnew'
      exact ⟨rfl, rfl⟩
    · rw [if_neg hmany] at hs' hu'
      cases hs'
      cases hu'
      exact ⟨rfl, rfl⟩

/-- **One action takes states that are alike to states that are alike**, if the deadline
has passed for both or neither. -/
theorem State.Alike.step {s u s' u' : State} {a : Action} (h : s.Alike u)
    (hlate : plan.request.budget.deadlineSeconds ≤ s.elapsed ↔ plan.request.budget.deadlineSeconds ≤ u.elapsed)
    (hs' : s.step e plan a = some s') (hu' : u.step e plan a = some u') : s'.Alike u' := by
  obtain ⟨hlocals, hphase⟩ := h
  cases a with
  | tick d =>
    simp only [State.step] at hs' hu'
    by_cases hd : 0 ≤ d
    · rw [if_pos hd] at hs' hu'
      cases hs'
      cases hu'
      exact ⟨hlocals, hphase⟩
    · rw [if_neg hd] at hs'
      cases hs'
  | advance =>
    cases hs : s.phase with
    | looping =>
      rw [hs] at hphase
      have hu := Phase.looping_of_erase hphase.symm
      rw [State.step, hs] at hs'
      rw [State.step, hu] at hu'
      exact turn_alike ⟨hlocals, by rw [hs, hu]⟩ hs hu hs' hu'
    | single t =>
      rw [hs] at hphase
      obtain ⟨v, hu, halike⟩ := Phase.single_of_erase hphase.symm
      rw [State.step, hs] at hs'
      rw [State.step, hu] at hu'
      obtain ⟨r, hr, rfl⟩ := Option.map_eq_some_iff.mp hs'
      obtain ⟨r', hr', rfl⟩ := Option.map_eq_some_iff.mp hu'
      rw [halike.eq_renumber] at hr
      have hsame : r = r' := Option.some.inj (hr.symm.trans hr')
      subst hsame
      refine ⟨?_, rfl⟩
      show s.locals.resumeSingle t r = u.locals.resumeSingle v r
      rw [halike.eq_renumber, hlocals]
      rfl
    | batch b => rw [State.step, hs] at hs'; cases hs'
    | returned r => rw [State.step, hs] at hs'; cases hs'
    | raised fields => rw [State.step, hs] at hs'; cases hs'
  | node ev =>
    simp only [State.step] at hs'
    split at hs'
    · rename_i t hs
      rw [hs] at hphase
      obtain ⟨v, hu, halike⟩ := Phase.single_of_erase hphase.symm
      rw [State.step, hu] at hu'
      obtain ⟨t', ht, rfl⟩ := Option.map_eq_some_iff.mp hs'
      obtain ⟨v', hv, rfl⟩ := Option.map_eq_some_iff.mp hu'
      exact ⟨hlocals, congrArg Phase.single (halike.step hlate.symm hv ht).symm⟩
    · cases hs'
  | branch i ev =>
    simp only [State.step] at hs'
    split at hs'
    · rename_i b hs
      rw [hs] at hphase
      obtain ⟨b', hu, herase⟩ := Phase.batch_of_erase hphase.symm
      rw [State.step, hu] at hu'
      obtain ⟨br, hbr, hs'⟩ := Option.bind_eq_some_iff.mp hs'
      obtain ⟨t', ht, hs'⟩ := Option.bind_eq_some_iff.mp hs'
      obtain ⟨br', hbr', hu'⟩ := Option.bind_eq_some_iff.mp hu'
      obtain ⟨v', hv, hu'⟩ := Option.bind_eq_some_iff.mp hu'
      cases hs'
      cases hu'
      have hbranches : b'.branches.map Branch.erase = b.branches.map Branch.erase := congrArg Batch.branches herase
      have hsame : br'.erase = br.erase := by
        have hget := congrArg (·[i]?) hbranches
        simp only [List.getElem?_map, hbr, hbr', Option.map_some, Option.some.injEq] at hget
        exact hget
      have htask : br'.task.Alike br.task := congrArg Branch.task hsame
      have hafter : v'.renumber 0 = t'.renumber 0 := htask.step hlate.symm hv ht
      refine ⟨hlocals, congrArg Phase.batch ?_⟩
      have hbaseline : b.baseline = b'.baseline := (Batch.mk.inj herase).1.symm
      have hcancelling : b.cancelling = b'.cancelling := (Batch.mk.inj herase).2.2.symm
      have hresult : br.result = br'.result := (Branch.mk.inj hsame).2.symm
      simp only [Batch.erase, List.map_set, hbranches, Branch.erase, hafter, hresult, hbaseline, hcancelling]
    · cases hs'
  | collect =>
    simp only [State.step] at hs'
    split at hs'
    · rename_i b hs
      rw [hs] at hphase
      obtain ⟨b', hu, herase⟩ := Phase.batch_of_erase hphase.symm
      rw [State.step, hu] at hu'
      obtain ⟨c, hc, rfl⟩ := Option.map_eq_some_iff.mp hs'
      obtain ⟨c', hc', rfl⟩ := Option.map_eq_some_iff.mp hu'
      have hcollect := erase_collect b
      rw [← herase, erase_collect, hc, hc'] at hcollect
      exact ⟨hlocals, congrArg Phase.batch (Option.some.inj hcollect).symm⟩
    · cases hs'
  | join =>
    simp only [State.step] at hs'
    split at hs'
    · rename_i b hs
      rw [hs] at hphase
      obtain ⟨b', hu, herase⟩ := Phase.batch_of_erase hphase.symm
      simp only [State.step, hu] at hu'
      split at hs'
      · split at hu'
        · cases hs'
          cases hu'
          refine ⟨?_, rfl⟩
          show s.locals.joinBatch b = u.locals.joinBatch b'
          rw [← erase_joinBatch _ b, ← erase_joinBatch _ b', herase, hlocals]
        · cases hu'
      · cases hs'
    · cases hs'

/-- The time an action takes, if it is one of time's. -/
def Action.passes : Action → Option ℚ
  | .tick d => some d
  | _ => none

/-- What the executor goes through in these actions: each with whether the deadline has passed. -/
def runExperiences (plan : FetchPlan) : ℚ → List Action → List (Bool × Action)
  | _, [] => []
  | elapsed, a :: rest =>
    match a.passes with
    | some d => runExperiences plan (elapsed + d) rest
    | none => (decide (plan.request.budget.deadlineSeconds ≤ elapsed), a) :: runExperiences plan elapsed rest

theorem turn_elapsed {s s' : State} (h : s.turn plan = some s') : s'.elapsed = s.elapsed := by
  unfold State.turn at h
  simp only at h
  split at h
  · cases h
    rfl
  · split at h
    · cases h
      rfl
    · split at h
      · cases h
        rfl
      · split at h
        · cases h
          rfl
        · split at h
          · obtain ⟨contexts, -, hs'⟩ := Option.bind_eq_some_iff.mp h
            cases hs'
            rfl
          · cases h
            rfl

/-- Only time's own actions take time, and they do nothing else. -/
theorem step_passes {s s' : State} {a : Action} (h : s.step e plan a = some s') :
    s'.elapsed = s.elapsed + a.passes.getD 0 ∧ (a.passes.isSome → s'.locals = s.locals ∧ s'.phase = s.phase) := by
  have hnone : s'.elapsed = s.elapsed → s'.elapsed = s.elapsed + 0 := fun h => h.trans (add_zero _).symm
  cases a with
  | tick d =>
    simp only [State.step] at h
    split at h
    · cases h
      exact ⟨rfl, fun _ => ⟨rfl, rfl⟩⟩
    · cases h
  | advance =>
    refine ⟨hnone ?_, fun h => by cases h⟩
    simp only [State.step] at h
    split at h
    · exact turn_elapsed h
    · obtain ⟨r, -, rfl⟩ := Option.map_eq_some_iff.mp h
      rfl
    · cases h
  | node ev =>
    refine ⟨hnone ?_, fun h => by cases h⟩
    simp only [State.step] at h
    split at h
    · obtain ⟨t', -, rfl⟩ := Option.map_eq_some_iff.mp h
      rfl
    · cases h
  | branch i ev =>
    refine ⟨hnone ?_, fun h => by cases h⟩
    simp only [State.step] at h
    split at h
    · obtain ⟨br, -, h⟩ := Option.bind_eq_some_iff.mp h
      obtain ⟨t', -, h⟩ := Option.bind_eq_some_iff.mp h
      cases h
      rfl
    · cases h
  | collect =>
    refine ⟨hnone ?_, fun h => by cases h⟩
    simp only [State.step] at h
    split at h
    · obtain ⟨b', -, rfl⟩ := Option.map_eq_some_iff.mp h
      rfl
    · cases h
  | join =>
    refine ⟨hnone ?_, fun h => by cases h⟩
    simp only [State.step] at h
    split at h
    · split at h
      · cases h
        rfl
      · cases h
    · cases h

/-- Where the executor goes through nothing, only time passes. -/
theorem run_ticks {u u' : State} {actions : List Action} (hsame : runExperiences plan u.elapsed actions = [])
    (hu : (machine e plan).run u actions = some u') : u'.locals = u.locals ∧ u'.phase = u.phase := by
  induction actions generalizing u with
  | nil =>
    cases hu
    exact ⟨rfl, rfl⟩
  | cons a rest ih =>
    obtain ⟨v, hv, hrest⟩ := Lib.Machine.run_cons hu
    obtain ⟨helapsed, hquiet⟩ := step_passes hv
    rw [runExperiences] at hsame
    split at hsame
    · rename_i d hpasses
      rw [hpasses, Option.getD_some] at helapsed
      obtain ⟨hlocals, hphase⟩ := hquiet (by rw [hpasses]; rfl)
      obtain ⟨hl, hp⟩ := ih (helapsed ▸ hsame) hrest
      exact ⟨hl.trans hlocals, hp.trans hphase⟩
    · cases hsame

/-- Before the first thing the executor goes through, time passes. -/
theorem run_past_ticks {u u' : State} {actions : List Action} {late : Bool} {a : Action} {more : List (Bool × Action)}
    (hsame : runExperiences plan u.elapsed actions = (late, a) :: more)
    (hu : (machine e plan).run u actions = some u') :
    ∃ v v' : State, ∃ rest, v.locals = u.locals ∧ v.phase = u.phase ∧
      late = decide (plan.request.budget.deadlineSeconds ≤ v.elapsed) ∧ v.step e plan a = some v' ∧
      (machine e plan).run v' rest = some u' ∧ runExperiences plan v'.elapsed rest = more := by
  induction actions generalizing u with
  | nil => cases hsame
  | cons a' rest ih =>
    obtain ⟨v, hv, hrest⟩ := Lib.Machine.run_cons hu
    obtain ⟨helapsed, hquiet⟩ := step_passes hv
    rw [runExperiences] at hsame
    split at hsame
    · rename_i d hpasses
      rw [hpasses, Option.getD_some] at helapsed
      rw [← helapsed] at hsame
      obtain ⟨hlocals, hphase⟩ := hquiet (by rw [hpasses]; rfl)
      obtain ⟨w, w', more', hwl, hwp, hw⟩ := ih hsame hrest
      exact ⟨w, w', more', hwl.trans hlocals, hwp.trans hphase, hw⟩
    · rename_i hpasses
      rw [hpasses, Option.getD_none, add_zero] at helapsed
      obtain ⟨hfirst, hmore⟩ := List.cons_eq_cons.mp hsame
      cases hfirst
      exact ⟨u, v, rest, rfl, rfl, rfl, hv, hrest, helapsed ▸ hmore⟩

/-- **States that are alike and go through the same end alike.** -/
theorem State.Alike.run {s u s' u' : State} (h : s.Alike u) {actions actions' : List Action}
    (hsame : runExperiences plan s.elapsed actions = runExperiences plan u.elapsed actions')
    (hs : (machine e plan).run s actions = some s') (hu : (machine e plan).run u actions' = some u') :
    s'.Alike u' := by
  induction actions generalizing s u actions' with
  | nil =>
    cases hs
    obtain ⟨hlocals, hphase⟩ := run_ticks hsame.symm hu
    exact ⟨h.locals.trans hlocals.symm, by rw [hphase]; exact h.phase⟩
  | cons a rest ih =>
    obtain ⟨v, hv, hrest⟩ := Lib.Machine.run_cons hs
    obtain ⟨helapsed, hquiet⟩ := step_passes hv
    rw [runExperiences] at hsame
    split at hsame
    · rename_i d hpasses
      rw [hpasses, Option.getD_some] at helapsed
      obtain ⟨hlocals, hphase⟩ := hquiet (by rw [hpasses]; rfl)
      exact ih ⟨hlocals.trans h.locals, by rw [hphase]; exact h.phase⟩ (helapsed ▸ hsame) hrest hu
    · rename_i hpasses
      rw [hpasses, Option.getD_none, add_zero] at helapsed
      obtain ⟨w, w', rest', hwl, hwp, hlate, hw, hrun, hmore⟩ := run_past_ticks hsame.symm hu
      have hwalike : s.Alike w := ⟨h.locals.trans hwl.symm, by rw [hwp]; exact h.phase⟩
      refine ih (hwalike.step (decide_eq_decide.mp hlate) hv hw) ?_ hrest hrun
      rw [helapsed, hmore]

end

/-! ### The theorem -/

/-- A batch that cancels nobody is run to its join. -/
structure Joins (e : Engine) (plan : FetchPlan) (s : State) (body : List Action) (t : State) : Prop where
  batching : ∃ b, Batching s b
  waits : ∀ a ∈ body, a ≠ .join
  cancelsNone : (machine e plan).Obeys CancelsNone.rule s body
  run : (machine e plan).run s (body ++ [.join]) = some t

/-- The lists two results share. -/
structure SameLists (r r' : FetchResult) : Prop where
  status : r.status = r'.status
  resources : r.resources = r'.resources
  artifacts : r.artifacts = r'.artifacts
  attempts : r.attempts = r'.attempts
  outcomes : r.capabilityOutcomes = r'.capabilityOutcomes
  decisions : r.policyDecisions = r'.policyDecisions
  diagnostics : r.diagnostics = r'.diagnostics

/-- What a branch ends with has grown from its copy. -/
theorem grows_carries (e : Engine) (plan : FetchPlan) :
    Carries e plan Anything (fun _ => True) (fun ctx t => ctx.Grows t.context) where
  single _ _ _ _ := .refl _
  branch _ _ _ _ _ _ _ _ := .refl _
  move _ _ _ _ _ _ hI _ hmove := hI.trans hmove.follows.grows
  cancel _ t _ hI _ _ := hI.trans {ExecutionContext.Grows.refl t.context with}
  skipDependencies _ _ _ _ _ _ := trivial
  skipFallback _ _ _ _ _ _ _ _ _ := trivial
  resume _ _ _ _ _ _ _ := trivial
  join _ _ _ _ _ _ _ := trivial

section
variable {e : Engine} {plan : FetchPlan} {s : State}

theorem run_grows {actions : List Action} (h : (machine e plan).run (.initial plan) actions = some s) :
    Inv plan (fun _ => True) (fun ctx t => ctx.Grows t.context) s :=
  (grows_carries e plan).run trivial (anything_obeyed _ _) h

/-- The batch that is joined, and what the join makes of it. -/
theorem Joins.cases {before body : List Action} {t : State} (hbefore : (machine e plan).run (.initial plan) before = some s)
    (h : Joins e plan s body t) :
    ∃ b m u first, Batching s b ∧ (machine e plan).run s body = some u ∧ u.phase = .batch m ∧
      m.Of plan s.locals first ∧ m.finished = true ∧
      (∀ br ∈ m.branches, ∃ budget, (withBudget s.locals.context budget).Grows br.task.context) ∧
      Ran e plan s.elapsed body b m ∧ m.cancelling = false ∧ t.locals = s.locals.joinBatch m ∧ t.phase = .looping := by
  obtain ⟨⟨b, hb⟩, hwaits, hobeys, hrun⟩ := h
  rw [Lib.Machine.run_append] at hrun
  obtain ⟨u, hu, hjoin⟩ := Option.bind_eq_some_iff.mp hrun
  obtain ⟨m, ⟨hphase, hkeeps⟩, hlocals, hran⟩ := batching_run hb hwaits hobeys hu
  obtain ⟨v, hv, hend⟩ := Lib.Machine.run_cons hjoin
  cases hend
  have hjoined : (machine e plan).run (.initial plan) (before ++ body) = some u := by
    rw [Lib.Machine.run_append, hbefore]
    exact hu
  have hinv := run_grows hjoined
  have hp := hinv.phase
  rw [hphase] at hp
  obtain ⟨first, hof, hI⟩ := hp
  rw [hlocals] at hof hI
  have hjoined : (if m.finished then some {u with locals := u.locals.joinBatch m, phase := .looping} else none) = some t := by
    have h : u.step e plan .join = some t := hv
    rw [State.step, hphase] at h
    exact h
  split at hjoined
  · rename_i hfinished
    cases hjoined
    refine ⟨b, m, u, first, hb, hu, hphase, hof, hfinished, fun br hbr => ?_, hran, hkeeps, by rw [← hlocals], rfl⟩
    obtain ⟨i, hi⟩ := List.mem_iff_getElem?.mp hbr
    exact ⟨_, hI i br hi⟩
  · cases hjoined

/-- **Two orders of the same branches leave the same batch.** -/
theorem erase_eq_of_ran {elapsed : ℚ} {body body' : List Action} {b m m' : Batch} {first first' : PlanNode}
    (hran : Ran e plan elapsed body b m) (hran' : Ran e plan elapsed body' b m')
    (hof : m.Of plan s.locals first) (hof' : m'.Of plan s.locals first') (hfinished : m.finished = true)
    (hfinished' : m'.finished = true) (hkeeps : m.cancelling = false) (hkeeps' : m'.cancelling = false)
    (hsame : ∀ i, experiences plan i elapsed body = experiences plan i elapsed body') : m.erase = m'.erase := by
  have hresult : ∀ {m : Batch} {first : PlanNode}, m.Of plan s.locals first → m.finished = true → m.cancelling = false →
      ∀ br ∈ m.branches, br.result = br.task.result? := by
    intro m first hof hfinished hkeeps br hbr
    have hall := List.all_eq_true.mp hfinished br hbr
    rw [hkeeps, Bool.false_and, Bool.or_false] at hall
    obtain hnone | ⟨heq, -⟩ := hof.results br hbr
    · rw [hnone] at hall
      cases hall
    · exact heq
  have hbranches : m.branches.map Branch.erase = m'.branches.map Branch.erase := by
    refine List.ext_getElem? fun i => ?_
    rw [List.getElem?_map, List.getElem?_map]
    cases hbr : b.branches[i]? with
    | none =>
      have hlen := List.getElem?_eq_none_iff.mp hbr
      rw [List.getElem?_eq_none (hran.length ▸ hlen), List.getElem?_eq_none (hran'.length ▸ hlen)]
    | some br =>
      obtain ⟨br₁, trace, hget, hrun, htrace⟩ := hran.branches i br hbr
      obtain ⟨br₂, trace', hget', hrun', htrace'⟩ := hran'.branches i br hbr
      have halike : br₁.task.Alike br₂.task :=
        Task.Alike.run (t := br.task) rfl (by rw [htrace, htrace', hsame i]) hrun hrun'
      rw [hget, hget', Option.map_some, Option.map_some, Branch.erase, Branch.erase,
        hresult hof hfinished hkeeps br₁ (List.mem_of_getElem? hget),
        hresult hof' hfinished' hkeeps' br₂ (List.mem_of_getElem? hget'), halike.eq_renumber]
      rfl
  rw [Batch.erase, Batch.erase, hbranches, hran.baseline, hran'.baseline, hkeeps, hkeeps']

end

theorem Inv.returned_eq {plan : FetchPlan} {L : Locals → Prop} {I : ExecutionContext → Task → Prop} {s : State}
    {r : FetchResult} (hs : Inv plan L I s) (hphase : s.phase = .returned r) :
    ∃ elapsed ledger, r = s.locals.result plan elapsed ledger := by
  have hp := hs.phase
  rw [hphase] at hp
  obtain ⟨-, elapsed, ledger, -, hr, -⟩ := hp
  exact ⟨elapsed, ledger, hr⟩

/-- **A batch is merged in plan order, whatever order its branches finish in.** From any
state in which a batch is under way that has cancelled nobody, and cancels nobody until its
join: the context after the join is the one before, followed in every list by what each
branch appended to its copy, in plan order, and accepted if it or a branch was. Any other
order of the same branches' steps leaves `execute` with the same locals; and if it goes on
the same way, its results have the same lists. -/
theorem batch_merged_in_plan_order (e : Engine) (plan : FetchPlan) (before body : List Action) (s t : State)
    (hbefore : (machine e plan).run (.initial plan) before = some s) (ht : Joins e plan s body t) :
    (∃ u m, (machine e plan).run s body = some u ∧ u.phase = .batch m ∧
      Merged s.locals.context (m.branches.map (·.task.context)) t.locals.context) ∧
    ∀ body' t', Joins e plan s body' t' →
      (∀ i, experiences plan i s.elapsed body = experiences plan i s.elapsed body') →
      t.locals = t'.locals ∧
      ∀ rest rest' r r', runExperiences plan t.elapsed rest = runExperiences plan t'.elapsed rest' →
        execute e plan (before ++ (body ++ .join :: rest)) = some r →
        execute e plan (before ++ (body' ++ .join :: rest')) = some r' → SameLists r r' := by
  obtain ⟨b, m, u, first, hb, hu, hphase, hof, hfinished, hgrows, hran, hkeeps, hlocals, hlooping⟩ := ht.cases hbefore
  refine ⟨⟨u, m, hu, hphase, ?_⟩, fun body' t' ht' hsame => ?_⟩
  · rw [hlocals]
    show Merged _ _ (mergeAll m.baseline _ _)
    rw [hof.baseline]
    refine mergeAll_merged fun branch hbranch => ?_
    obtain ⟨br, hbr, rfl⟩ := List.mem_map.mp hbranch
    exact hgrows br hbr
  obtain ⟨b', m', u', first', hb', -, -, hof', hfinished', -, hran', hkeeps', hlocals', hlooping'⟩ := ht'.cases hbefore
  have hbatch : b = b' := Phase.batch.inj (hb.phase.symm.trans hb'.phase)
  subst hbatch
  have herase : m.erase = m'.erase :=
    erase_eq_of_ran hran hran' hof hof' hfinished hfinished' hkeeps hkeeps' hsame
  have hsamelocals : t.locals = t'.locals := by
    rw [hlocals, hlocals', ← erase_joinBatch _ m, herase, erase_joinBatch]
  refine ⟨hsamelocals, fun rest rest' r r' hrest hr hr' => ?_⟩
  have halike : t.Alike t' := ⟨hsamelocals, by rw [hlooping, hlooping']⟩
  have hsplit : ∀ {body t}, Joins e plan s body t → ∀ {rest v},
      (machine e plan).run (.initial plan) (before ++ (body ++ .join :: rest)) = some v →
      (machine e plan).run t rest = some v := by
    intro body t ht rest v hv
    rw [Lib.Machine.run_append, hbefore, Option.bind_some, List.append_cons, Lib.Machine.run_append, ht.run] at hv
    exact hv
  obtain ⟨v, hv, hvphase⟩ := execute_eq_some hr
  obtain ⟨v', hv', hvphase'⟩ := execute_eq_some hr'
  have hend := halike.run hrest (hsplit ht hv) (hsplit ht' hv')
  obtain ⟨elapsed, ledger, rfl⟩ := (run_grows hv).returned_eq hvphase
  obtain ⟨elapsed', ledger', rfl⟩ := (run_grows hv').returned_eq hvphase'
  rw [hend.locals]
  exact ⟨rfl, rfl, rfl, rfl, rfl, rfl, rfl⟩

def found (message : String) : Diagnostic := {code := "extracted", message}

/-- An extractor that leaves a diagnostic and accepts nothing. -/
def extracts (i : Nat) (message : String) : List Action :=
  [.branch i .resume, .branch i .resume, .branch i (.op (.addDiagnostic (found message))), .branch i .returns,
    .branch i .resume]

def inPlanOrder : List Action := extracts 0 "first" ++ [.collect] ++ extracts 1 "second" ++ [.collect]

def inReverse : List Action := extracts 1 "second" ++ extracts 0 "first" ++ [.collect]

/-- The state in which the extractors' batch waits. -/
def extractorsStarted : Option State := (machine sampleEngine extractorPlan).run (.initial extractorPlan) [.advance]

theorem extractorsStarted_isSome : extractorsStarted.isSome = true := by decide +kernel

theorem batch_merged_in_plan_order_extractors : ∃ s t t', extractorsStarted = some s ∧
    Joins sampleEngine extractorPlan s inPlanOrder t ∧ Joins sampleEngine extractorPlan s inReverse t' ∧
    t.locals = t'.locals ∧ t.locals.context.diagnostics = [found "first", found "second"] := by
  let s := extractorsStarted.get extractorsStarted_isSome
  have hs : extractorsStarted = some s := (Option.some_get _).symm
  have hbatch : (s.phase.batch?.map (·.cancelling)) = some false := by decide +kernel
  have hbatching : ∃ b, Batching s b := by
    obtain ⟨b, hb, hkeeps⟩ := Option.map_eq_some_iff.mp hbatch
    exact ⟨b, Phase.eq_of_batch? hb, hkeeps⟩
  have hjoins : ∀ body, (∀ a ∈ body, a ≠ .join) →
      (machine sampleEngine extractorPlan).Obeys CancelsNone.rule s body →
      (((machine sampleEngine extractorPlan).run s (body ++ [.join])).map fun t => t.locals.context.diagnostics) =
        some [found "first", found "second"] →
      ∃ t, Joins sampleEngine extractorPlan s body t ∧
        t.locals.context.diagnostics = [found "first", found "second"] := by
    intro body hwaits hobeys hrun
    obtain ⟨t, ht, hdiagnostics⟩ := Option.map_eq_some_iff.mp hrun
    exact ⟨t, ⟨hbatching, hwaits, hobeys, ht⟩, hdiagnostics⟩
  obtain ⟨t, ht, hdiagnostics⟩ := hjoins inPlanOrder (by simp [inPlanOrder, extracts]) (by decide +kernel) (by decide +kernel)
  obtain ⟨t', ht', -⟩ := hjoins inReverse (by simp [inReverse, extracts]) (by decide +kernel) (by decide +kernel)
  have h := (batch_merged_in_plan_order sampleEngine extractorPlan [.advance] inPlanOrder s t hs ht).2 inReverse t' ht' (by
    intro i
    obtain _ | _ | i := i
    · rfl
    · rfl
    · simp [inPlanOrder, inReverse, extracts, experiences])
  exact ⟨s, t, t', hs, ht, ht', h.1, hdiagnostics⟩

end Fetech.Executor
