import Fetech.Executor.Moves
import Fetech.Executor.Partition
import Fetech.Lib.Lists

/-! Invariants of a run from invariants of its parts.

An invariant of the executor has two halves: `L` of the locals whenever the loop is
between nodes, and `I` of a task against the context it was given. `Carries` lists what
has to be shown of each; `Carries.run` lifts it to every run, over every order of the
branches' steps. A `Discipline` is what the argument asks of the surroundings. -/
namespace Fetech.Executor

/-- What is asked of every step of a task, at the time it is taken, of every branch at
the time its batch cancels it, and of the locals at every turn of the loop. -/
structure Discipline where
  task : ℚ → Task → TaskEvent → Prop
  cancel : Task → Prop
  turn : Locals → Prop := fun _ => True
  decidableTurn : DecidablePred turn := by infer_instance

/-- The discipline as a rule on the actions of a run. -/
def Discipline.rule (D : Discipline) (s : State) : Action → Prop
  | .node ev => ∀ t ∈ s.phase.single?, D.task s.elapsed t ev
  | .branch i ev => ∀ b ∈ s.phase.batch?, ∀ br ∈ b.branches[i]?, D.task s.elapsed br.task ev
  | .collect => ∀ b ∈ s.phase.batch?, b.cancelsLosers = true →
      ∀ br ∈ b.branches, br.collect.result.isNone = true → D.cancel br.task
  | .advance => s.phase.isLooping = true → D.turn s.locals
  | _ => True

instance (D : Discipline) [∀ q t ev, Decidable (D.task q t ev)] [∀ t, Decidable (D.cancel t)] (s : State) :
    (a : Action) → Decidable (D.rule s a)
  | .tick _ => isTrue trivial
  | .advance =>
    have := D.decidableTurn
    inferInstanceAs (Decidable (s.phase.isLooping = true → D.turn s.locals))
  | .node ev => inferInstanceAs (Decidable (∀ t ∈ s.phase.single?, D.task s.elapsed t ev))
  | .branch i ev =>
    inferInstanceAs (Decidable (∀ b ∈ s.phase.batch?, ∀ br ∈ b.branches[i]?, D.task s.elapsed br.task ev))
  | .collect => inferInstanceAs (Decidable (∀ b ∈ s.phase.batch?, b.cancelsLosers = true →
      ∀ br ∈ b.branches, br.collect.result.isNone = true → D.cancel br.task))
  | .join => isTrue trivial

/-- Two disciplines at once. -/
def Discipline.both (D D' : Discipline) : Discipline where
  task q t ev := D.task q t ev ∧ D'.task q t ev
  cancel t := D.cancel t ∧ D'.cancel t
  turn l := D.turn l ∧ D'.turn l
  decidableTurn l :=
    have := D.decidableTurn l
    have := D'.decidableTurn l
    inferInstanceAs (Decidable (_ ∧ _))

theorem Discipline.both_rule {D D' : Discipline} {s : State} {a : Action} (h : D.rule s a) (h' : D'.rule s a) :
    (D.both D').rule s a := by
  cases a with
  | tick d => trivial
  | advance => exact fun hloop => ⟨h hloop, h' hloop⟩
  | node ev => exact fun t ht => ⟨h t ht, h' t ht⟩
  | branch i ev => exact fun b hb br hbr => ⟨h b hb br hbr, h' b hb br hbr⟩
  | collect => exact fun b hb hlosers br hbr hpending => ⟨h b hb hlosers br hbr hpending, h' b hb hlosers br hbr hpending⟩
  | join => trivial

/-- The loop is about to run this node. -/
structure AtNode (plan : FetchPlan) (l : Locals) (node : PlanNode) : Prop where
  next : plan.nodes[l.nodeIndex]? = some node
  running : l.stopped = false
  ready : ready l.completed node = true
  wanted : (l.context.accepted && isFallback node) = false

/-- The nodes that run together with the first. -/
abbrev Locals.batchAt (plan : FetchPlan) (l : Locals) (first : PlanNode) : List PlanNode :=
  parallelBatch plan.nodes l.nodeIndex first l.completed l.context

/-- The context branch `i` of `n` is given. -/
def branchContext (ctx : ExecutionContext) (n i : Nat) : ExecutionContext := withBudget ctx (branchBudget ctx n i)

/-- The batch under way is the one the loop started at `first`. -/
structure Batch.Of (plan : FetchPlan) (l : Locals) (first : PlanNode) (b : Batch) : Prop where
  atNode : AtNode plan l first
  nodes : b.branches.map (·.task.node) = l.batchAt plan first
  many : 1 < b.branches.length
  baseline : b.baseline = .capture l.context
  results : ∀ br ∈ b.branches, br.result = none ∨ (br.result = br.task.result? ∧ br.task.result?.isSome)

/-- What makes `L` and `I` an invariant of the runs that keep the discipline. -/
structure Carries (e : Engine) (plan : FetchPlan) (D : Discipline) (L : Locals → Prop)
    (I : ExecutionContext → Task → Prop) : Prop where
  single : ∀ l node, L l → AtNode plan l node → I l.context {node, context := l.context}
  branch : ∀ l first i node, L l → AtNode plan l first → 1 < (l.batchAt plan first).length →
    (l.batchAt plan first)[i]? = some node →
    I (branchContext l.context (l.batchAt plan first).length i)
      {node, context := branchContext l.context (l.batchAt plan first).length i}
  move : ∀ ctx t ev t' elapsed id, I ctx t → D.task elapsed t ev → Task.Move e plan elapsed id t ev t' → I ctx t'
  cancel : ∀ ctx t reason, I ctx t → t.result? = none → D.cancel t → I ctx (t.cancel reason)
  skipDependencies : ∀ l node, L l → plan.nodes[l.nodeIndex]? = some node → l.stopped = false →
    ready l.completed node = false → L (l.skipDependencies node)
  skipFallback : ∀ l node, L l → plan.nodes[l.nodeIndex]? = some node → l.stopped = false →
    ready l.completed node = true → l.context.accepted = true → isFallback node = true → D.turn l →
    L (l.skipFallback node)
  resume : ∀ l t r, L l → AtNode plan l t.node → I l.context t → t.pc = .done r → L (l.resumeSingle t r)
  join : ∀ l first b, L l → b.Of plan l first →
    (∀ i br, b.branches[i]? = some br → I (branchContext l.context b.branches.length i) br.task) →
    b.finished = true → L (l.joinBatch b)

/-- Nothing is left for the loop. -/
def Locals.exhausted (plan : FetchPlan) (l : Locals) : Prop := l.stopped = true ∨ plan.nodes.length ≤ l.nodeIndex

/-- What a phase has to do with the locals. -/
def PhaseInv (plan : FetchPlan) (I : ExecutionContext → Task → Prop) (l : Locals) : Phase → Prop
  | .looping => True
  | .single t => AtNode plan l t.node ∧ I l.context t
  | .batch b => ∃ first, b.Of plan l first ∧
      ∀ i br, b.branches[i]? = some br → I (branchContext l.context b.branches.length i) br.task
  | .returned r => l.exhausted plan ∧ ∃ elapsed ledger, 0 ≤ elapsed ∧
      r = l.result plan elapsed ledger ∧ r.remainingBudget.Valid
  | .raised fields => l.exhausted plan ∧ ∃ elapsed ledger, 0 ≤ elapsed ∧
      fields = (l.result plan elapsed ledger).remainingBudget.violations ∧ fields ≠ []

/-- The invariant of a state. `L` holds of the locals in every phase: they change only
between nodes. -/
structure Inv (plan : FetchPlan) (L : Locals → Prop) (I : ExecutionContext → Task → Prop) (s : State) : Prop where
  elapsed : 0 ≤ s.elapsed
  locals : L s.locals
  phase : PhaseInv plan I s.locals s.phase

/-! ### The steps of a run -/

section
variable {e : Engine} {plan : FetchPlan} {D : Discipline} {L : Locals → Prop}
  {I : ExecutionContext → Task → Prop}

theorem finish_inv {s : State} (hs : Inv plan L I s) (hx : s.locals.exhausted plan) :
    Inv plan L I (s.finish plan) := by
  refine ⟨hs.elapsed, hs.locals, ?_⟩
  show PhaseInv plan I s.locals (if _ then _ else _)
  split
  · rename_i hv
    exact ⟨hx, s.elapsed, s.ledger, hs.elapsed, rfl, List.isEmpty_iff.mp hv⟩
  · rename_i hv
    exact ⟨hx, s.elapsed, s.ledger, hs.elapsed, rfl, fun hnil => hv (List.isEmpty_iff.mpr hnil)⟩

/-- The branches a batch starts with. -/
theorem start_branches {ctx : ExecutionContext} {nodes : List PlanNode} {contexts : List ExecutionContext}
    (hc : parallelContexts ctx nodes.length = some contexts) (i : Nat) :
    (Batch.start ctx nodes contexts).branches[i]? =
      nodes[i]?.map fun node => {task := {node, context := branchContext ctx nodes.length i}} := by
  have hcontexts : contexts = (List.range nodes.length).map (branchContext ctx nodes.length) := by
    unfold parallelContexts partitionParallelBudgets at hc
    split at hc
    · cases hc
    · show contexts = (List.range nodes.length).map fun i => withBudget ctx (branchBudget ctx nodes.length i)
      simpa [Function.comp_def] using hc.symm
  rw [hcontexts]
  simp only [Batch.start, List.getElem?_map, List.zip]
  by_cases hi : i < nodes.length
  · simp [hi]
  · have hnone : nodes[i]? = none := List.getElem?_eq_none (by omega)
    simp [List.getElem?_zipWith, hnone]

theorem start_of {l : Locals} {first : PlanNode} {contexts : List ExecutionContext} (hat : AtNode plan l first)
    (hmany : 1 < (l.batchAt plan first).length)
    (hc : parallelContexts l.context (l.batchAt plan first).length = some contexts) :
    (Batch.start l.context (l.batchAt plan first) contexts).Of plan l first := by
  have hnodes : (Batch.start l.context (l.batchAt plan first) contexts).branches.map (·.task.node) =
      l.batchAt plan first := by
    refine List.ext_getElem? fun i => ?_
    rw [List.getElem?_map, start_branches hc]
    cases (l.batchAt plan first)[i]? <;> rfl
  refine ⟨hat, hnodes, ?_, rfl, ?_⟩
  · rw [← hnodes, List.length_map] at hmany
    exact hmany
  · intro br hbr
    simp only [Batch.start, List.mem_map] at hbr
    obtain ⟨p, -, rfl⟩ := hbr
    exact .inl rfl

theorem Batch.Of.length_eq {l : Locals} {first : PlanNode} {b : Batch} (h : b.Of plan l first) :
    b.branches.length = (l.batchAt plan first).length := by
  rw [← h.nodes, List.length_map]

theorem turn_inv (C : Carries e plan D L I) {s s' : State} (hs : Inv plan L I s) (hphase : s.phase = .looping)
    (hrule : D.turn s.locals) (h : s.turn plan = some s') : Inv plan L I s' := by
  unfold State.turn at h
  simp only at h
  split at h
  · rename_i hnone
    cases h
    exact finish_inv hs (.inr (List.getElem?_eq_none_iff.mp hnone))
  rename_i node hnode
  split at h
  · rename_i hstop
    cases h
    exact finish_inv hs (.inl hstop)
  rename_i hstop
  have hrun : s.locals.stopped = false := by simpa using hstop
  split at h
  · rename_i hready
    cases h
    refine ⟨hs.elapsed, C.skipDependencies _ _ hs.locals hnode hrun (by simpa using hready), ?_⟩
    rw [hphase]
    trivial
  rename_i hready
  replace hready : ready s.locals.completed node = true := by simpa using hready
  split at h
  · rename_i hfallback
    rw [Bool.and_eq_true] at hfallback
    cases h
    refine ⟨hs.elapsed, C.skipFallback _ _ hs.locals hnode hrun hready hfallback.1 hfallback.2 hrule, ?_⟩
    rw [hphase]
    trivial
  rename_i hfallback
  have hat : AtNode plan s.locals node := ⟨hnode, hrun, hready, by simpa using hfallback⟩
  split at h
  · rename_i hmany
    obtain ⟨contexts, hc, hs'⟩ := Option.bind_eq_some_iff.mp h
    cases hs'
    refine ⟨hs.elapsed, hs.locals, node, start_of hat hmany hc, ?_⟩
    intro i br hbr
    have hlen : (Batch.start s.locals.context (s.locals.batchAt plan node) contexts).branches.length =
        (s.locals.batchAt plan node).length := (start_of hat hmany hc).length_eq
    rw [start_branches hc, Option.map_eq_some_iff] at hbr
    obtain ⟨n, hn, rfl⟩ := hbr
    rw [hlen]
    exact C.branch _ _ _ _ hs.locals hat hmany hn
  · cases h
    exact ⟨hs.elapsed, hs.locals, hat, C.single _ _ hs.locals hat⟩

/-- A task that has returned takes no more steps. -/
theorem Task.Move.not_done {elapsed : ℚ} {id : Nat} {t t' : Task} {ev : TaskEvent}
    (h : Task.Move e plan elapsed id t ev t') : t.result? = none := by
  cases h <;> grind [Task.result?]

theorem branch_inv (C : Carries e plan D L I) {l : Locals} {first : PlanNode} {b : Batch} {i id : Nat} {br : Branch}
    {ev : TaskEvent} {t' : Task} {elapsed : ℚ} (hof : b.Of plan l first)
    (hI : ∀ i br, b.branches[i]? = some br → I (branchContext l.context b.branches.length i) br.task)
    (hbr : b.branches[i]? = some br) (hrule : D.task elapsed br.task ev)
    (hmove : Task.Move e plan elapsed id br.task ev t') :
    ∃ first, ({b with branches := b.branches.set i {br with task := t'}} : Batch).Of plan l first ∧
      ∀ j br', (b.branches.set i {br with task := t'})[j]? = some br' →
        I (branchContext l.context (b.branches.set i {br with task := t'}).length j) br'.task := by
  have hi : i < b.branches.length := (List.getElem?_eq_some_iff.mp hbr).1
  refine ⟨first, ⟨hof.atNode, ?_, by simpa using hof.many, hof.baseline, ?_⟩, ?_⟩
  · rw [List.map_set, ← hof.nodes, hmove.follows.node]
    exact Lib.Lists.set_same (by rw [List.getElem?_map, hbr]; rfl)
  · intro br' hbr'
    rcases List.mem_or_eq_of_mem_set hbr' with hold | rfl
    · exact hof.results _ hold
    · rcases hof.results br (List.mem_of_getElem? hbr) with hnone | ⟨-, hsome⟩
      · exact .inl hnone
      · rw [hmove.not_done] at hsome
        cases hsome
  · intro j br' hj
    rw [List.length_set]
    rw [List.getElem?_set] at hj
    split at hj
    · rename_i hij
      subst hij
      cases hj
      exact C.move _ _ _ _ _ _ (hI i br hbr) hrule hmove
    · exact hI j br' hj

/-- The two ways `asyncio.wait` is handled. -/
theorem collect_cases {b b' : Batch} (h : b.collect = some b') :
    b.cancelling = false ∧ b.branches.any Branch.arrived = true ∧
    ((b' = {b with branches := b.branches.map Branch.collect} ∧
        (b.cancelsLosers = true → ∀ br ∈ b.branches, br.collect.result.isSome)) ∨
      (b.cancelsLosers = true ∧ ∃ reason,
        b' = {b with branches := b.branches.map (Branch.settle reason), cancelling := true})) := by
  unfold Batch.collect at h
  split at h
  · cases h
  rename_i hen
  simp only [Bool.or_eq_true, Bool.not_eq_true', not_or, Bool.not_eq_false] at hen
  refine ⟨by simpa using hen.1, hen.2, ?_⟩
  simp only at h
  split at h
  · rename_i hcancel
    cases h
    exact .inr ⟨(Bool.and_eq_true _ _ ▸ hcancel).1, _, rfl⟩
  · rename_i hcancel
    cases h
    refine .inl ⟨rfl, fun hlosers br hbr => ?_⟩
    rw [hlosers, Bool.true_and] at hcancel
    simp only [List.any_eq_true, not_exists, not_and] at hcancel
    simpa [Option.isSome_iff_ne_none] using hcancel br hbr

theorem collect_result {br : Branch}
    (h : br.result = none ∨ (br.result = br.task.result? ∧ br.task.result?.isSome)) :
    br.collect.result = br.task.result? := by
  rcases h with h | ⟨h, hsome⟩
  · simp [Branch.collect, h]
  · simp [Branch.collect, h]

/-- What is left of a branch when its batch collects. -/
theorem settle_cases (reason : String) (br : Branch) :
    (br.collect.result.isSome ∧ br.settle reason = br.collect) ∨
    (br.collect.result = none ∧ br.settle reason = {br.collect with task := br.task.cancel reason}) := by
  unfold Branch.settle
  cases h : br.collect.result with
  | none => exact .inr ⟨rfl, rfl⟩
  | some r => exact .inl ⟨rfl, rfl⟩

theorem results_collect {br : Branch}
    (h : br.result = none ∨ (br.result = br.task.result? ∧ br.task.result?.isSome)) :
    br.collect.result = none ∨ (br.collect.result = br.task.result? ∧ br.task.result?.isSome) := by
  rw [collect_result h]
  cases br.task.result? with
  | none => exact .inl rfl
  | some r => exact .inr ⟨rfl, rfl⟩

theorem collect_inv (C : Carries e plan D L I) {l : Locals} {first : PlanNode} {b b' : Batch}
    (hof : b.Of plan l first)
    (hI : ∀ i br, b.branches[i]? = some br → I (branchContext l.context b.branches.length i) br.task)
    (hrule : b.cancelsLosers = true → ∀ br ∈ b.branches, br.collect.result.isNone = true → D.cancel br.task)
    (h : b.collect = some b') :
    b'.Of plan l first ∧
      ∀ i br, b'.branches[i]? = some br → I (branchContext l.context b'.branches.length i) br.task := by
  obtain ⟨-, -, ⟨rfl, -⟩ | ⟨hlosers, reason, rfl⟩⟩ := collect_cases h
  · refine ⟨⟨hof.atNode, ?_, by simpa using hof.many, hof.baseline, ?_⟩, ?_⟩
    · rw [← hof.nodes, List.map_map]
      rfl
    · intro br hbr
      obtain ⟨br, hmem, rfl⟩ := List.mem_map.mp hbr
      exact results_collect (hof.results br hmem)
    · intro i br hbr
      rw [List.getElem?_map, Option.map_eq_some_iff] at hbr
      obtain ⟨br, hbr, rfl⟩ := hbr
      rw [List.length_map]
      exact hI i br hbr
  · refine ⟨⟨hof.atNode, ?_, by simpa using hof.many, hof.baseline, ?_⟩, ?_⟩
    · rw [← hof.nodes, List.map_map]
      refine List.map_congr_left fun br _ => ?_
      rcases settle_cases reason br with ⟨-, heq⟩ | ⟨-, heq⟩ <;> rw [Function.comp_apply, heq] <;> rfl
    · intro br hbr
      obtain ⟨br, hmem, rfl⟩ := List.mem_map.mp hbr
      rcases settle_cases reason br with ⟨-, heq⟩ | ⟨hnone, heq⟩ <;> rw [heq]
      · exact results_collect (hof.results br hmem)
      · exact .inl hnone
    · intro i br hbr
      rw [List.getElem?_map, Option.map_eq_some_iff] at hbr
      obtain ⟨br, hbr, rfl⟩ := hbr
      rw [List.length_map]
      have hmem := List.mem_of_getElem? hbr
      rcases settle_cases reason br with ⟨-, heq⟩ | ⟨hnone, heq⟩ <;> rw [heq]
      · exact hI i br hbr
      · have hpending := (collect_result (hof.results br hmem)).symm.trans hnone
        exact C.cancel _ _ reason (hI i br hbr) hpending (hrule hlosers br hmem (by simp [hnone]))

/-- **One step**: an action that keeps the discipline keeps the invariant. -/
theorem step_inv (C : Carries e plan D L I) {s s' : State} {a : Action} (hs : Inv plan L I s) (hrule : D.rule s a)
    (h : s.step e plan a = some s') : Inv plan L I s' := by
  cases a with
  | tick d =>
    simp only [State.step] at h
    split at h
    · rename_i hd
      cases h
      exact ⟨add_nonneg hs.elapsed hd, hs.locals, hs.phase⟩
    · cases h
  | advance =>
    simp only [State.step] at h
    split at h
    · rename_i hphase
      exact turn_inv C hs hphase (hrule (by rw [hphase]; rfl)) h
    · rename_i t hphase
      obtain ⟨r, hr, rfl⟩ := Option.map_eq_some_iff.mp h
      have hp := hs.phase
      rw [hphase] at hp
      have hpc : t.pc = .done r := by
        unfold Task.result? at hr
        split at hr
        · cases hr
          assumption
        · cases hr
      exact ⟨hs.elapsed, C.resume _ _ _ hs.locals hp.1 hp.2 hpc, trivial⟩
    · cases h
  | node ev =>
    simp only [State.step] at h
    split at h
    · rename_i t hphase
      obtain ⟨t', ht, rfl⟩ := Option.map_eq_some_iff.mp h
      have hp := hs.phase
      rw [hphase] at hp
      replace hrule := hrule t (by rw [hphase]; rfl)
      have hmove := Task.step_move ht
      refine ⟨hs.elapsed, hs.locals, ?_, C.move _ _ _ _ _ _ hp.2 hrule hmove⟩
      rw [hmove.follows.node]
      exact hp.1
    · cases h
  | branch i ev =>
    simp only [State.step] at h
    split at h
    · rename_i b hphase
      obtain ⟨br, hbr, h⟩ := Option.bind_eq_some_iff.mp h
      obtain ⟨t', ht, h⟩ := Option.bind_eq_some_iff.mp h
      cases h
      have hp := hs.phase
      rw [hphase] at hp
      replace hrule := hrule b (by rw [hphase]; rfl)
      obtain ⟨first, hof, hI⟩ := hp
      exact ⟨hs.elapsed, hs.locals, branch_inv C hof hI hbr (hrule br hbr) (Task.step_move ht)⟩
    · cases h
  | collect =>
    simp only [State.step] at h
    split at h
    · rename_i b hphase
      obtain ⟨b', hb', rfl⟩ := Option.map_eq_some_iff.mp h
      have hp := hs.phase
      rw [hphase] at hp
      replace hrule := hrule b (by rw [hphase]; rfl)
      obtain ⟨first, hof, hI⟩ := hp
      exact ⟨hs.elapsed, hs.locals, first, collect_inv C hof hI hrule hb'⟩
    · cases h
  | join =>
    simp only [State.step] at h
    split at h
    · rename_i b hphase
      split at h
      · rename_i hfin
        cases h
        have hp := hs.phase
        rw [hphase] at hp
        obtain ⟨first, hof, hI⟩ := hp
        exact ⟨hs.elapsed, C.join _ _ _ hs.locals hof hI hfin, trivial⟩
      · cases h
    · cases h

/-- **Every run** that keeps the discipline stays within the invariant. -/
theorem Carries.run (C : Carries e plan D L I) (hinit : L (State.initial plan).locals) {actions : List Action}
    {s : State} (hobeys : (machine e plan).Obeys D.rule (.initial plan) actions)
    (hrun : (machine e plan).run (.initial plan) actions = some s) : Inv plan L I s := by
  have hstart : Inv plan L I (State.initial plan) := ⟨le_refl _, hinit, trivial⟩
  have hstep : ∀ s a s', Inv plan L I s → D.rule s a → (machine e plan).step s a = some s' → Inv plan L I s' :=
    fun s a s' hs hr h => step_inv C hs hr h
  exact Lib.Machine.run_invariant hstep hstart hobeys hrun

end

end Fetech.Executor
