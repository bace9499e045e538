import Fetech.Executor.Outcomes
import Fetech.Executor.Losers

/-! Several requested outputs of one group.

`EverySucceeds` is what it means that every adapter would succeed on its own. Under it
every node of a plan in order is reached and completes; and an output is lost only
where the loop gives it up: to a winner among its siblings, or as a fallback nobody
needs any more. `KeepsOutputs` asks that neither happens. -/
namespace Fetech.Executor

/-- The parallel groups in which a request's outputs are scheduled. -/
def outputGroups : List String := ["document-extractors", "media-extractors", "static-readers"]

def isOutput (node : PlanNode) : Bool := node.parallelGroup.any outputGroups.contains

/-- An attempt for the capability that names an artifact. -/
def suppliedBy (artifacts : List Artifact) (capabilityId : String) (a : FetchAttempt) : Bool :=
  a.capabilityId == capabilityId && artifacts.any fun x => a.artifactIds.contains x.artifactId

/-- The capability has an APPLIED outcome and an artifact. -/
def delivers (outcomes : List CapabilityOutcome) (attempts : List FetchAttempt) (artifacts : List Artifact)
    (capabilityId : String) : Bool :=
  (outcomes.any fun o => o.capabilityId == capabilityId && o.status == .applied) &&
    attempts.any (suppliedBy artifacts capabilityId)

theorem delivers_mono {outcomes outcomes' : List CapabilityOutcome} {attempts attempts' : List FetchAttempt}
    {artifacts artifacts' : List Artifact} {c : String} (ho : outcomes ⊆ outcomes') (ha : attempts ⊆ attempts')
    (hx : artifacts ⊆ artifacts') (h : delivers outcomes attempts artifacts c = true) :
    delivers outcomes' attempts' artifacts' c = true := by
  simp only [delivers, suppliedBy, Bool.and_eq_true, List.any_eq_true] at h ⊢
  obtain ⟨⟨o, hmem, happlied⟩, a, hamem, hcap, x, hxmem, hid⟩ := h
  exact ⟨⟨o, ho hmem, happlied⟩, a, ha hamem, hcap, x, hx hxmem, hid⟩

/-- The same of a context. -/
def suppliedIn (ctx : ExecutionContext) (c : String) : Bool :=
  delivers ctx.capabilityOutcomes ctx.attempts ctx.artifacts c

/-! ### Adapters that succeed -/

/-- When its adapter returns, the node has an artifact, and no verdict but APPLIED. -/
def Task.succeeds (t : Task) : Bool :=
  let verdicts := (t.context.capabilityOutcomes.drop t.outcomeCount).filter (·.capabilityId == t.node.capabilityId)
  (verdicts.isEmpty || verdicts.any (·.status == .applied)) &&
    (t.context.attempts.drop t.attemptCount).any (suppliedBy t.context.artifacts t.node.capabilityId)

/-- The step is one of an adapter that succeeds: it is registered, approved, in time
and has an attempt left; it replaces no attempt but its own; it returns, and for an
output it has succeeded then. -/
def Task.goesWell (e : Engine) (plan : FetchPlan) (elapsed : ℚ) (t : Task) (ev : TaskEvent) : Bool :=
  match t.pc, ev with
  | .created, .resume => e.registered t.node.adapter
  | .starting, .resume => (enforceApproval e plan t.node).isNone &&
      decide (0 < plan.request.budget.deadlineSeconds - elapsed) &&
      decide ((t.context.attempts.length : Int) < t.context.request.budget.attempts)
  | .calling _, .op (.setAttempt i _) => decide (t.attemptCount ≤ i)
  | .calling _, .returns => !isOutput t.node || t.succeeds
  | .calling _, .raises _ => false
  | .calling _, .expire => false
  -- the parent's cancellation is no failure of its own
  | .calling _, .interrupted => t.cancelDelivered
  | _, _ => true

def EverySucceeds (e : Engine) (plan : FetchPlan) : Discipline where
  task elapsed t ev := t.goesWell e plan elapsed ev = true
  cancel _ := True

instance (e : Engine) (plan : FetchPlan) (q : ℚ) (t : Task) (ev : TaskEvent) :
    Decidable ((EverySucceeds e plan).task q t ev) := inferInstanceAs (Decidable (_ = true))

instance (e : Engine) (plan : FetchPlan) (t : Task) : Decidable ((EverySucceeds e plan).cancel t) :=
  inferInstanceAs (Decidable True)

/-- The loop skips no output as a fallback. -/
def keepsFallback (plan : FetchPlan) (l : Locals) : Bool :=
  plan.nodes[l.nodeIndex]?.all fun node => !(isOutput node && l.context.accepted && isFallback node)

/-- A batch collects an accepted branch only when no sibling is pending, and no output
is skipped as a fallback. -/
def KeepsOutputs (plan : FetchPlan) : Discipline where
  task _ _ _ := True
  cancel _ := False
  turn l := keepsFallback plan l = true

instance (plan : FetchPlan) (q : ℚ) (t : Task) (ev : TaskEvent) : Decidable ((KeepsOutputs plan).task q t ev) :=
  inferInstanceAs (Decidable True)

instance (plan : FetchPlan) (t : Task) : Decidable ((KeepsOutputs plan).cancel t) :=
  inferInstanceAs (Decidable False)

/-! ### A task that succeeds -/

/-- What the task has to show for its output since it was given its context. -/
def Task.brought (ctx : ExecutionContext) (t : Task) : Bool :=
  delivers (t.context.capabilityOutcomes.drop ctx.capabilityOutcomes.length)
    (t.context.attempts.drop ctx.attempts.length) t.context.artifacts t.node.capabilityId

/-- By where the task is: what it counts from, and what it has to show. -/
def Task.OnTrackAt (ctx : ExecutionContext) (t : Task) : Prop :=
  match t.pc with
  | .created => t.context = ctx
  | .starting => t.context = ctx
  | .calling _ => t.attemptCount = ctx.attempts.length ∧ t.outcomeCount = ctx.capabilityOutcomes.length
  | .flushing _ .continuing => t.attemptCount = ctx.attempts.length ∧
      t.outcomeCount = ctx.capabilityOutcomes.length ∧ (isOutput t.node = true → t.succeeds = true)
  | .finishing => isOutput t.node = true → t.brought ctx = true
  | .done r => r = {completed := true} ∧ (isOutput t.node = true → t.brought ctx = true)
  | _ => False

structure Task.OnTrack (ctx : ExecutionContext) (t : Task) : Prop where
  uncancelled : t.cancelRequested = false ∧ t.cancelDelivered = false
  grows : ctx.Grows t.context
  attempts : ctx.attempts <+: t.context.attempts
  at_ : t.OnTrackAt ctx

section
variable {e : Engine} {plan : FetchPlan} {elapsed : ℚ} {id : Nat} {t t' : Task} {ev : TaskEvent}
  {ctx : ExecutionContext}

/-- After the `finally` block an adapter that succeeded has an APPLIED outcome. -/
theorem applied_of_succeeds (hcount : t.outcomeCount ≤ t.context.capabilityOutcomes.length) (h : t.succeeds = true) :
    delivers ((ensureOutcome t.context t.node t.outcomeCount .applied).capabilityOutcomes.drop t.outcomeCount)
      (t.context.attempts.drop t.attemptCount) t.context.artifacts t.node.capabilityId = true := by
  simp only [Task.succeeds, Bool.and_eq_true, Bool.or_eq_true] at h
  obtain ⟨hverdict, hsupplied⟩ := h
  refine Bool.and_eq_true_iff.mpr ⟨?_, hsupplied⟩
  unfold ensureOutcome
  split
  · rename_i hany
    obtain ⟨o, ho, hcap⟩ := List.any_eq_true.mp hany
    have hmem : o ∈ (t.context.capabilityOutcomes.drop t.outcomeCount).filter
        (·.capabilityId == t.node.capabilityId) := List.mem_filter.mpr ⟨ho, hcap⟩
    rcases hverdict with hnone | hsome
    · rw [List.isEmpty_iff.mp hnone] at hmem
      cases hmem
    · obtain ⟨o, ho, happlied⟩ := List.any_eq_true.mp hsome
      obtain ⟨hmem, hcap⟩ := List.mem_filter.mp ho
      exact List.any_eq_true.mpr ⟨o, hmem, Bool.and_eq_true_iff.mpr ⟨hcap, happlied⟩⟩
  · simp only [ExecutionContext.recordOutcome, List.drop_append_of_le_length hcount, List.any_append]
    simp

/-- Out of the `finally` block, or still in it. -/
theorem flushFrom_onTrack (i : Nat) (hc : t.cancelRequested = false ∧ t.cancelDelivered = false) (hgrows : ctx.Grows t.context)
    (hattempts : ctx.attempts <+: t.context.attempts) (ha : t.attemptCount = ctx.attempts.length)
    (ho : t.outcomeCount = ctx.capabilityOutcomes.length) (hs : isOutput t.node = true → t.succeeds = true) :
    (t.flushFrom i .continuing).OnTrack ctx := by
  unfold Task.flushFrom
  split
  · exact ⟨hc, hgrows, hattempts, ha, ho, hs⟩
  · refine ⟨hc, hgrows.trans (Task.ensureOutcome_grows _ _ _ _ _), ?_, fun hout => ?_⟩
    · show ctx.attempts <+: (ensureOutcome _ _ _ _ _).attempts
      rw [Task.ensureOutcome_attempts]
      exact hattempts
    · have hcount : t.outcomeCount ≤ t.context.capabilityOutcomes.length := by
        rw [ho]
        exact hgrows.outcomes.length_le
      have happlied := applied_of_succeeds hcount (hs hout)
      unfold Task.brought
      rw [← ha, ← ho]
      refine delivers_mono (List.Subset.refl _) ?_ ?_ happlied
      · show _ ⊆ (ensureOutcome _ _ _ _ _).attempts.drop _
        rw [Task.ensureOutcome_attempts]
        exact List.Subset.refl _
      · exact (Task.ensureOutcome_grows _ _ _ _ _).artifacts.subset

/-- Replacing only its own attempts, an adapter keeps those before them. -/
theorem apply_keeps_attempts {o : ContextOp} (hattempts : ctx.attempts <+: t.context.attempts)
    (hown : ∀ i a, o = .setAttempt i a → ctx.attempts.length ≤ i) :
    ctx.attempts <+: (o.apply t.context).attempts := by
  cases o with
  | addAttempt a => exact hattempts.trans (List.prefix_append _ _)
  | setAttempt i a =>
    rw [List.prefix_iff_eq_take] at hattempts ⊢
    simp only [ContextOp.apply]
    rw [List.take_set_of_le (hown i a rfl)]
    exact hattempts
  | _ => exact hattempts

/-- One step of an adapter that succeeds keeps its task on track. -/
theorem move_onTrack (hmove : Task.Move e plan elapsed id t ev t') (h : t.OnTrack ctx)
    (hrule : t.goesWell e plan elapsed ev = true) : t'.OnTrack ctx := by
  obtain ⟨huncancelled, hgrows, hattempts, hat⟩ := h
  unfold Task.OnTrackAt at hat
  have hthrown : t.cancelRequested = true → t'.OnTrack ctx := by
    intro hreq
    rw [hreq] at huncancelled
    cases huncancelled.1
  cases hmove with
  | op k o hpc =>
    rw [hpc] at hat
    refine ⟨huncancelled, hgrows.trans (o.apply_grows _), apply_keeps_attempts hattempts fun i a hset => ?_, ?_⟩
    · subst hset
      simpa [Task.goesWell, hpc, hat.1] using hrule
    · simpa [Task.OnTrackAt, hpc] using hat
  | start hpc hc =>
    rw [hpc] at hat
    have hregistered : e.registered t.node.adapter = true := by simpa [Task.goesWell, hpc] using hrule
    rw [Task.start, if_pos hregistered]
    exact ⟨huncancelled, hgrows, hattempts, hat⟩
  | enter hpc hc =>
    rw [hpc] at hat
    simp only [Task.goesWell, hpc, Bool.and_eq_true, decide_eq_true_eq, Option.isNone_iff_eq_none] at hrule
    obtain ⟨⟨happroved, htime⟩, hroom⟩ := hrule
    have hcalls : t.enter e plan elapsed id =
        {t.opened id with pc := .calling 0, callStart := t.context.attempts.length} := by
      unfold Task.enter Task.admitted
      rw [show (t.opened id).node = t.node from rfl, happroved]
      simp only [not_le.mpr htime, if_false]
      have hleft : ¬(t.opened id).context.request.budget.attempts ≤ (t.opened id).context.attempts.length :=
        not_le.mpr hroom
      rw [Task.call, if_neg hleft]
      rfl
    rw [hcalls]
    refine ⟨huncancelled, hgrows, hattempts, ?_, ?_⟩
    · exact congrArg (fun c : ExecutionContext => c.attempts.length) hat
    · exact congrArg (fun c : ExecutionContext => c.capabilityOutcomes.length) hat
  | flushed i exit hpc hc =>
    rw [hpc] at hat
    cases exit with
    | continuing => exact flushFrom_onTrack _ huncancelled hgrows hattempts hat.1 hat.2.1 hat.2.2
    | returning r => exact hat.elim
    | raising => exact hat.elim
  | finished hpc hc =>
    rw [hpc] at hat
    exact ⟨huncancelled, hgrows, hattempts, rfl, hat⟩
  | returns k hpc hc =>
    rw [hpc] at hat
    have hsucceeds : isOutput t.node = true → t.succeeds = true := by
      intro hout
      simpa [Task.goesWell, hpc, hout] using hrule
    exact flushFrom_onTrack (t := {t with fate := .returned}) _ huncancelled hgrows hattempts hat.1 hat.2 hsucceeds
  -- no adapter raises or is interrupted
  | raises k err hpc hc => simp [Task.goesWell, hpc] at hrule
  | expire k hpc hc => simp [Task.goesWell, hpc] at hrule
  | interrupted k hpc hc => simp [Task.goesWell, hpc, huncancelled.2] at hrule
  | retry k hpc hc =>
    rw [hpc] at hat
    exact hat.elim
  | expireBackoff k hpc hc =>
    rw [hpc] at hat
    exact hat.elim
  | handled w r hpc hc =>
    rw [hpc] at hat
    exact hat.elim
  | cancelHandled hpc hc =>
    rw [hpc] at hat
    exact hat.elim
  | dropped w hpc hc => exact hthrown hc
  | thrown w k hpc hc => exact hthrown hc
  | woken w k hpc hc => exact hthrown hc
  | handlerCut w ev r hpc hc => exact hthrown hc
  | flushCut w i exit hpc hc => exact hthrown hc
  | finishCut w hpc hc => exact hthrown hc

end

/-! ### Runs -/

/-- Every node passed has completed, and every output among them is there. -/
structure Reached (plan : FetchPlan) (l : Locals) : Prop where
  running : l.stopped = false
  completed : ∀ node ∈ plan.nodes.take l.nodeIndex, node.id ∈ l.completed
  supplied : ∀ node ∈ plan.nodes.take l.nodeIndex, isOutput node = true → suppliedIn l.context node.capabilityId = true

section
variable {plan : FetchPlan} {l l' : Locals} {node : PlanNode}

/-- In a plan in order, no dependency is missing. -/
theorem Reached.ready (h : Reached plan l) (hordered : Ordered plan.nodes) (hnode : plan.nodes[l.nodeIndex]? = some node) :
    ready l.completed node = true := by
  obtain ⟨hlt, hget⟩ := List.getElem?_eq_some_iff.mp hnode
  have hsplit : plan.nodes = plan.nodes.take l.nodeIndex ++ node :: plan.nodes.drop (l.nodeIndex + 1) := by
    rw [← hget, ← List.drop_eq_getElem_cons hlt, List.take_append_drop]
  refine List.all_eq_true.mpr fun d hd => ?_
  obtain ⟨n, hn, rfl⟩ := List.mem_map.mp (hordered _ _ _ hsplit d hd)
  exact List.contains_iff_mem.mpr (h.completed n hn)

/-- One node further. -/
theorem Reached.succ (h : Reached plan l) (hnode : plan.nodes[l.nodeIndex]? = some node)
    (hindex : l'.nodeIndex = l.nodeIndex + 1) (hrunning : l'.stopped = false)
    (hcompleted : l'.completed = l.completed ++ [node.id])
    (hkept : ∀ c, suppliedIn l.context c = true → suppliedIn l'.context c = true)
    (hnew : isOutput node = true → suppliedIn l'.context node.capabilityId = true) : Reached plan l' := by
  have hcases : ∀ n ∈ plan.nodes.take l'.nodeIndex, n ∈ plan.nodes.take l.nodeIndex ∨ n = node := by
    intro n hn
    rw [hindex, List.take_add_one, hnode, Option.toList_some, List.mem_append, List.mem_singleton] at hn
    exact hn
  refine ⟨hrunning, fun n hn => ?_, fun n hn hout => ?_⟩
  · rw [hcompleted, List.mem_append]
    rcases hcases n hn with hold | rfl
    · exact .inl (h.completed n hold)
    · exact .inr (List.mem_singleton.mpr rfl)
  · rcases hcases n hn with hold | rfl
    · exact hkept _ (h.supplied n hold hout)
    · exact hnew hout

end

/-- What a task brought is there once its context is the run's. -/
theorem Task.OnTrack.supplied {ctx : ExecutionContext} {t : Task} (h : t.brought ctx = true) :
    suppliedIn t.context t.node.capabilityId = true :=
  delivers_mono (List.drop_subset _ _) (List.drop_subset _ _) (List.Subset.refl _) h

theorem joinBatch_completed (l : Locals) (b : Batch) : (l.joinBatch b).completed =
    l.completed ++ (b.branches.filter (·.outcome.completed)).map (·.task.node.id) := by
  show (b.branches.foldl (fun l br => l.absorb br.task.node br.outcome) l).completed = _
  induction b.branches generalizing l with
  | nil => simp
  | cons br rest ih =>
    rw [List.foldl_cons, ih]
    cases hc : br.outcome.completed <;> simp [Locals.absorb, hc]

/-- A branch of a finished batch that was never cancelled reports its completion. -/
theorem Task.OnTrack.outcome {plan : FetchPlan} {l : Locals} {first : PlanNode} {b : Batch} {br : Branch}
    {ctx : ExecutionContext} (hof : b.Of plan l first) (hfin : b.finished = true) (hbr : br ∈ b.branches)
    (h : br.task.OnTrack ctx) :
    br.outcome = {completed := true} ∧ (isOutput br.task.node = true → br.task.brought ctx = true) := by
  have hat := h.at_
  unfold Task.OnTrackAt at hat
  rcases hof.ended hfin hbr with ⟨r, hpc⟩ | hpc
  · rw [hpc] at hat
    refine ⟨?_, hat.2⟩
    rw [hof.outcome_eq hbr, Task.result?, hpc]
    exact hat.1
  · rw [hpc] at hat
    exact hat.elim

/-- Merging loses nothing the run had. -/
theorem mergeAll_supplied {baseline : ContextLengths} {ctx : ExecutionContext} {branches : List ExecutionContext}
    {c : String} (h : suppliedIn ctx c = true) : suppliedIn (mergeAll baseline ctx branches) c = true := by
  unfold suppliedIn
  rw [mergeAll_outcomes, mergeAll_attempts, mergeAll_artifacts]
  exact delivers_mono (List.subset_append_left _ _) (List.subset_append_left _ _) (List.subset_append_left _ _) h

/-- Merging keeps what a branch brought. -/
theorem mergeAll_brought {ctx : ExecutionContext} {branches : List ExecutionContext} {t : Task} {n i : Nat}
    (hmem : t.context ∈ branches) (hon : t.OnTrack (branchContext ctx n i))
    (h : t.brought (branchContext ctx n i) = true) :
    suppliedIn (mergeAll (.capture ctx) ctx branches) t.node.capabilityId = true := by
  have hin : ∀ {α : Type} (f : ExecutionContext → List α) {x : α}, x ∈ f t.context →
      x ∈ (branches.map f).flatten := fun f x hx => List.mem_flatten.mpr ⟨_, List.mem_map.mpr ⟨_, hmem, rfl⟩, hx⟩
  unfold suppliedIn
  rw [mergeAll_outcomes, mergeAll_attempts, mergeAll_artifacts]
  refine delivers_mono (fun o ho => ?_) (fun a ha => ?_) (fun x hx => ?_) h
  · exact List.mem_append_right _ (hin (fun b => b.capabilityOutcomes.drop ctx.capabilityOutcomes.length) ho)
  · exact List.mem_append_right _ (hin (fun b => b.attempts.drop ctx.attempts.length) ha)
  -- an artifact of the branch stood there before, or was added
  · obtain ⟨new, hnew⟩ := hon.grows.artifacts
    rw [← hnew, List.mem_append] at hx
    rcases hx with hold | hx
    · exact List.mem_append_left _ hold
    · refine List.mem_append_right _ (hin (fun b => b.artifacts.drop ctx.artifacts.length) ?_)
      rw [← hnew]
      exact List.mem_of_mem_drop (i := 0) (by simpa [branchContext, withBudget] using hx)

theorem keepsOutputs_carries (e : Engine) (plan : FetchPlan) (hordered : Ordered plan.nodes) :
    Carries e plan ((EverySucceeds e plan).both (KeepsOutputs plan)) (Reached plan) Task.OnTrack where
  single l node _ _ := ⟨⟨rfl, rfl⟩, .refl _, List.prefix_rfl, rfl⟩
  branch l first i node _ _ _ _ := ⟨⟨rfl, rfl⟩, .refl _, List.prefix_rfl, rfl⟩
  move ctx t ev t' elapsed id hI hrule hmove := move_onTrack hmove hI hrule.1
  cancel ctx t reason hI _ hrule := hrule.2.elim
  skipDependencies l node hL hnode _ hready := by
    rw [hL.ready hordered hnode] at hready
    cases hready
  skipFallback l node hL hnode hrunning _ haccepted hfallback hrule := by
    have hother : isOutput node = false := by
      have hkeeps : keepsFallback plan l = true := hrule.2
      simpa [keepsFallback, hnode, haccepted, hfallback] using hkeeps
    refine hL.succ hnode rfl hrunning rfl (fun c hc => ?_) fun hout => ?_
    · exact delivers_mono (List.subset_append_left _ _) (List.Subset.refl _) (List.Subset.refl _) hc
    · rw [hother] at hout
      cases hout
  resume l t r hL hat hI hpc := by
    have hdone := hI.at_
    unfold Task.OnTrackAt at hdone
    rw [hpc] at hdone
    obtain ⟨rfl, hbrought⟩ := hdone
    refine hL.succ hat.next rfl rfl rfl (fun c hc => ?_) fun hout => Task.OnTrack.supplied (hbrought hout)
    exact delivers_mono hI.grows.outcomes.subset hI.attempts.subset hI.grows.artifacts.subset hc
  join l first b hL hof hI hfin := by
    have houtcome : ∀ br ∈ b.branches, br.outcome = {completed := true} := by
      intro br hbr
      obtain ⟨i, hi⟩ := List.mem_iff_getElem?.mp hbr
      exact (Task.OnTrack.outcome hof hfin hbr (hI i br hi)).1
    refine ⟨?_, fun node hnode => ?_, fun node hnode hout => ?_⟩
    · show b.branches.any (·.outcome.stop) = false
      rw [List.any_eq_false]
      intro br hbr
      simp [houtcome br hbr]
    · rw [joinBatch_completed, List.mem_append]
      rcases hof.passed hnode with hold | ⟨br, hbr, rfl⟩
      · exact .inl (hL.completed node hold)
      · exact .inr (List.mem_map.mpr ⟨br, List.mem_filter.mpr ⟨hbr, by simp [houtcome br hbr]⟩, rfl⟩)
    · show suppliedIn (mergeAll b.baseline l.context _) node.capabilityId = true
      rcases hof.passed hnode with hold | ⟨br, hbr, rfl⟩
      · exact mergeAll_supplied (hL.supplied node hold hout)
      · obtain ⟨i, hi⟩ := List.mem_iff_getElem?.mp hbr
        have hbrought := (Task.OnTrack.outcome hof hfin hbr (hI i br hi)).2 hout
        rw [hof.baseline]
        exact mergeAll_brought (List.mem_map.mpr ⟨br, hbr, rfl⟩) (hI i br hi) hbrought

theorem result_artifacts (plan : FetchPlan) (l : Locals) (elapsed : ℚ) (ledger : List ProvenanceEvent) :
    (l.result plan elapsed ledger).artifacts = l.context.artifacts := by
  simp only [Locals.result, closingOutcomes]
  split <;> rfl

/-- **Every output is there** at the end of a run that gives none up. -/
theorem outputs_supplied {e : Engine} {plan : FetchPlan} {actions : List Action} {r : FetchResult}
    (hordered : Ordered plan.nodes)
    (hsucceeds : (machine e plan).Obeys (EverySucceeds e plan).rule (.initial plan) actions)
    (hkeeps : (machine e plan).Obeys (KeepsOutputs plan).rule (.initial plan) actions)
    (hreturns : execute e plan actions = some r) :
    ∀ node ∈ plan.nodes, isOutput node = true →
      delivers r.capabilityOutcomes r.attempts r.artifacts node.capabilityId = true := by
  obtain ⟨s, hrun, hreturned⟩ := execute_eq_some hreturns
  have hobeys := (hsucceeds.and hkeeps).mono fun s a h => Discipline.both_rule h.1 h.2
  have hinv := (keepsOutputs_carries e plan hordered).run ⟨rfl, by simp [State.initial], by simp [State.initial]⟩ hobeys hrun
  have hphase := hinv.phase
  rw [hreturned] at hphase
  obtain ⟨hend, elapsed, ledger, -, rfl, -⟩ := hphase
  have hall : plan.nodes.take s.locals.nodeIndex = plan.nodes := by
    rcases hend with hstopped | hlength
    · rw [hinv.locals.running] at hstopped
      cases hstopped
    · exact List.take_of_length_le hlength
  intro node hnode hout
  have hsupplied := hinv.locals.supplied node (hall.symm ▸ hnode) hout
  refine delivers_mono (result_outcomes plan s.locals elapsed ledger).subset ?_ ?_ hsupplied
  · rw [result_attempts]
    exact List.Subset.refl _
  · rw [result_artifacts]
    exact List.Subset.refl _

end Fetech.Executor
