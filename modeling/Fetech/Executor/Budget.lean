import Fetech.Executor.Progress
import Mathlib.Algebra.Order.Ring.Rat
import Mathlib.Tactic.NormNum

/-! The budget a result reports.

`_remaining_budget` is built from what the attempts recorded and validated only at the
very end. Every field may fall to its lower bound but one: `archive_members` must be at
least one, so a run that uses up its archive members raises there. -/
namespace Fetech.Executor

/-! ### What adapters record -/

/-- What the adapter adds to the consumption of a field: an attempt put in the place of
an earlier version of itself records the difference. -/
def recorded (attempts : List FetchAttempt) (f : IntField) : ContextOp → Int
  | .addAttempt a => a.consumedBudget.int f
  | .setAttempt i a => (attempts[i]?.map fun old => a.consumedBudget.int f - old.consumedBudget.int f).getD 0
  | _ => 0

def recordedFloat (attempts : List FetchAttempt) (f : FloatField) : ContextOp → ℚ
  | .addAttempt a => a.consumedBudget.float f
  | .setAttempt i a => (attempts[i]?.map fun old => a.consumedBudget.float f - old.consumedBudget.float f).getD 0
  | _ => 0

/-- What is recorded fits what remains of every field. -/
def fitsRemaining (ctx : ExecutionContext) (o : ContextOp) : Bool :=
  (IntField.all.all fun f =>
    decide (0 ≤ recorded ctx.attempts f o ∧ recorded ctx.attempts f o ≤ ctx.remainingBudget f)) &&
  FloatField.all.all fun f =>
    decide (0 ≤ recordedFloat ctx.attempts f o ∧ recordedFloat ctx.attempts f o ≤ ctx.remainingFloat f)

/-- Whoever records archive members leaves one over. -/
def sparesMember (ctx : ExecutionContext) (o : ContextOp) : Bool :=
  recorded ctx.attempts .archiveMembers o == 0 ||
    decide (recorded ctx.attempts .archiveMembers o < ctx.remainingBudget .archiveMembers)

/-- What the adapter does in a step. -/
def TaskEvent.op? : TaskEvent → Option ContextOp
  | .op o => some o
  | _ => none

/-- A discipline on what adapters do to their contexts. -/
def onOps (allowed : ExecutionContext → ContextOp → Bool) : Discipline where
  task _ t ev := ∀ o ∈ ev.op?, allowed t.context o = true
  cancel _ := True

instance (allowed : ExecutionContext → ContextOp → Bool) (q : ℚ) (t : Task) (ev : TaskEvent) :
    Decidable ((onOps allowed).task q t ev) :=
  inferInstanceAs (Decidable (∀ o ∈ ev.op?, allowed t.context o = true))

instance (allowed : ExecutionContext → ContextOp → Bool) (t : Task) : Decidable ((onOps allowed).cancel t) :=
  inferInstanceAs (Decidable True)

/-- Adapters record what fits. -/
abbrev FitsRemaining : Discipline := onOps fitsRemaining

/-- Adapters record what fits and leave an archive member over. -/
abbrev SparesMember : Discipline := onOps fun ctx o => fitsRemaining ctx o && sparesMember ctx o

/-- Every attempt has recorded amounts, not debts. -/
def NoDebts (attempts : List FetchAttempt) : Prop :=
  ∀ a ∈ attempts, (∀ f, 0 ≤ a.consumedBudget.int f) ∧ ∀ f, 0 ≤ a.consumedBudget.float f

theorem NoDebts.append {a b : List FetchAttempt} (ha : NoDebts a) (hb : NoDebts b) : NoDebts (a ++ b) := by
  intro x hx
  rcases List.mem_append.mp hx with hx | hx
  · exact ha x hx
  · exact hb x hx

theorem NoDebts.sublist {a b : List FetchAttempt} (h : NoDebts b) (hab : a.Sublist b) : NoDebts a :=
  fun x hx => h x (hab.subset hx)

theorem NoDebts.consumedBy_nonneg {attempts : List FetchAttempt} (h : NoDebts attempts) (f : IntField) :
    0 ≤ consumedBy attempts f := by
  refine List.sum_nonneg fun x hx => ?_
  obtain ⟨a, ha, rfl⟩ := List.mem_map.mp hx
  exact (h a ha).1 f

theorem NoDebts.consumedFloatBy_nonneg {attempts : List FetchAttempt} (h : NoDebts attempts) (f : FloatField) :
    0 ≤ consumedFloatBy attempts f := by
  refine List.sum_nonneg fun x hx => ?_
  obtain ⟨a, ha, rfl⟩ := List.mem_map.mp hx
  exact (h a ha).2 f

theorem fitsRemaining_int {ctx : ExecutionContext} {o : ContextOp} (h : fitsRemaining ctx o = true) (f : IntField) :
    0 ≤ recorded ctx.attempts f o ∧ recorded ctx.attempts f o ≤ ctx.remainingBudget f := by
  rw [fitsRemaining, Bool.and_eq_true] at h
  exact of_decide_eq_true (List.all_eq_true.mp h.1 f f.mem_all)

theorem fitsRemaining_float {ctx : ExecutionContext} {o : ContextOp} (h : fitsRemaining ctx o = true)
    (f : FloatField) :
    0 ≤ recordedFloat ctx.attempts f o ∧ recordedFloat ctx.attempts f o ≤ ctx.remainingFloat f := by
  rw [fitsRemaining, Bool.and_eq_true] at h
  exact of_decide_eq_true (List.all_eq_true.mp h.2 f f.mem_all)

/-- What is recorded is what consumption grows by. -/
theorem consumedBy_apply (ctx : ExecutionContext) (o : ContextOp) (f : IntField) :
    consumedBy (o.apply ctx).attempts f = consumedBy ctx.attempts f + recorded ctx.attempts f o := by
  cases o with
  | addAttempt a => simp [ContextOp.apply, consumedBy, recorded]
  | setAttempt i a =>
    simp only [ContextOp.apply, recorded]
    cases hi : ctx.attempts[i]? with
    | none =>
      rw [List.set_eq_of_length_le (List.getElem?_eq_none_iff.mp hi)]
      simp
    | some old =>
      have hset := Lib.Lists.sum_map_set (fun a : FetchAttempt => a.consumedBudget.int f) hi a
      simp only [consumedBy, Option.map_some, Option.getD_some]
      omega
  | _ => simp [ContextOp.apply, recorded, ExecutionContext.recordRuntimeEvent]

theorem noDebts_apply {ctx : ExecutionContext} {o : ContextOp} (h : NoDebts ctx.attempts)
    (hfits : fitsRemaining ctx o = true) : NoDebts (o.apply ctx).attempts := by
  cases o with
  | addAttempt a =>
    refine h.append fun x hx => ?_
    cases List.mem_singleton.mp hx
    exact ⟨fun f => (fitsRemaining_int hfits f).1, fun f => (fitsRemaining_float hfits f).1⟩
  | setAttempt i a =>
    intro x hx
    rcases List.mem_or_eq_of_mem_set hx with hx | rfl
    · exact h x hx
    · cases hi : ctx.attempts[i]? with
      | none =>
        rw [ContextOp.apply, List.set_eq_of_length_le (List.getElem?_eq_none_iff.mp hi)] at hx
        exact h x hx
      | some old =>
        have hold := h old (List.mem_of_getElem? hi)
        refine ⟨fun f => ?_, fun f => ?_⟩
        · have hnew := (fitsRemaining_int hfits f).1
          simp only [recorded, hi, Option.map_some, Option.getD_some] at hnew
          exact (hold.1 f).trans (sub_nonneg.mp hnew)
        · have hnew := (fitsRemaining_float hfits f).1
          simp only [recordedFloat, hi, Option.map_some, Option.getD_some] at hnew
          exact (hold.2 f).trans (sub_nonneg.mp hnew)
  | _ => exact h

/-! ### Consumption along the steps of a task -/

/-- The attempts recorded the same, up to new ones that recorded nothing. -/
def SameConsumption (before after : List FetchAttempt) : Prop :=
  ∃ k, after.map (·.consumedBudget) = before.map (·.consumedBudget) ++ List.replicate k ({} : Consumption)

namespace SameConsumption
variable {a b c : List FetchAttempt}

theorem refl (a : List FetchAttempt) : SameConsumption a a := ⟨0, by simp⟩

theorem trans (hab : SameConsumption a b) (hbc : SameConsumption b c) : SameConsumption a c := by
  obtain ⟨k, hk⟩ := hab
  obtain ⟨m, hm⟩ := hbc
  refine ⟨k + m, ?_⟩
  rw [hm, hk, List.append_assoc, List.replicate_append_replicate]

theorem noDebts (h : SameConsumption a b) (ha : NoDebts a) : NoDebts b := by
  obtain ⟨k, hk⟩ := h
  intro x hx
  have hmem := List.mem_map_of_mem (f := fun a : FetchAttempt => a.consumedBudget) hx
  rw [hk, List.mem_append] at hmem
  rcases hmem with hmem | hmem
  · obtain ⟨y, hy, heq⟩ := List.mem_map.mp hmem
    rw [← heq]
    exact ha y hy
  · rw [(List.mem_replicate.mp hmem).2]
    exact ⟨fun _ => le_refl _, fun _ => le_refl _⟩

theorem take (h : SameConsumption a b) {n : Nat} (hn : n ≤ a.length) :
    (b.take n).map (·.consumedBudget) = (a.take n).map (·.consumedBudget) := by
  obtain ⟨k, hk⟩ := h
  rw [List.map_take, hk, List.take_append_of_le_length (by simpa using hn), List.map_take]

theorem consumedBy (h : SameConsumption a b) (f : IntField) : consumedBy b f = consumedBy a f := by
  obtain ⟨k, hk⟩ := h
  have hmap := congrArg (fun cs => (cs.map fun c : Consumption => c.int f).sum) hk
  simpa [Fetech.consumedBy, Function.comp_def] using hmap

end SameConsumption

section
variable {e : Engine} {plan : FetchPlan} {elapsed : ℚ} {id : Nat} {t t' : Task} {ev : TaskEvent}

theorem closeLast_same (p : AttemptStatus → Bool) (status : AttemptStatus) (code : String)
    (attempts : List FetchAttempt) : SameConsumption attempts (closeLast p status code attempts) := by
  unfold closeLast
  split
  · exact .refl _
  · rename_i a ha
    split
    · refine ⟨0, ?_⟩
      obtain ⟨init, rfl⟩ := List.getLast?_eq_some_iff.mp ha
      simp
    · exact .refl _

theorem ensureDeadline_same (ctx : ExecutionContext) (node : PlanNode) (n : Nat) :
    SameConsumption ctx.attempts (ensureDeadlineAttemptFailed e ctx node n) := by
  unfold ensureDeadlineAttemptFailed
  split
  · exact ⟨1, by simp⟩
  · exact closeLast_same _ _ _ _

theorem handle_same (err : AdapterError) : SameConsumption t.context.attempts (t.handle e err).context.attempts := by
  show SameConsumption _ (t.handledContext e err).attempts
  rw [Task.handledContext_attempts]
  unfold Task.handledAttempts
  split
  · exact ensureDeadline_same _ _ _
  · exact closeLast_same _ _ _ _

theorem handleCancel_same : SameConsumption t.context.attempts t.handleCancel.context.attempts := by
  show SameConsumption _ t.cancelledContext.attempts
  rw [Task.cancelledContext_attempts]
  exact closeLast_same _ _ _ _

theorem interrupt_same : SameConsumption t.context.attempts (t.interrupt e).context.attempts := by
  unfold Task.interrupt
  split
  · exact handleCancel_same
  · exact handle_same _

theorem call_same (k : Nat) : SameConsumption t.context.attempts (t.call e k).context.attempts := by
  unfold Task.call
  split
  · exact handle_same _
  · exact .refl _

theorem admitted_same : SameConsumption t.context.attempts (t.admitted e plan elapsed).context.attempts := by
  unfold Task.admitted
  split
  · exact handle_same _
  · split
    · exact (ensureDeadline_same _ _ _).trans
        (handle_same (t := {t with context.attempts := ensureDeadlineAttemptFailed e t.context t.node t.attemptCount}) _)
    · exact call_same _

theorem caught_same (k : Nat) (err : AdapterError) :
    SameConsumption t.context.attempts (t.caught e k err).context.attempts := by
  unfold Task.caught
  split
  · split
    · exact .refl _
    · exact call_same _
  · exact handle_same _

theorem flushFrom_same (i : Nat) (exit : Exit) :
    SameConsumption t.context.attempts (t.flushFrom i exit).context.attempts := by
  rw [flushFrom_attempts]
  exact .refl _

/-- Nobody but an adapter records consumption. -/
theorem move_same (hmove : Task.Move e plan elapsed id t ev t') (hop : ∀ o, ev ≠ .op o) :
    SameConsumption t.context.attempts t'.context.attempts := by
  cases hmove with
  | op k o hpc => exact absurd rfl (hop o)
  | start hpc hc =>
    unfold Task.start
    split <;> exact .refl _
  | enter hpc hc => exact admitted_same (t := t.opened id)
  | retry k hpc hc => exact call_same _
  | raises k err hpc hc => exact caught_same k err
  | expireBackoff k hpc hc => exact interrupt_same
  | interrupted k hpc hc => exact interrupt_same
  | woken w k hpc hc =>
    exact handleCancel_same (t := {t with cancelRequested := false, cancelDelivered := true})
  | handled w r hpc hc => exact flushFrom_same _ _
  | cancelHandled hpc hc => exact flushFrom_same _ _
  | flushed i exit hpc hc => exact flushFrom_same _ _
  | returns k hpc hc => exact flushFrom_same (t := {t with fate := .returned}) _ _
  | handlerCut w ev r hpc hc => exact flushFrom_same (t := {t with cancelRequested := false}) _ _
  | finished hpc hc => exact .refl _
  | expire k hpc hc => exact .refl _
  | dropped w hpc hc => exact .refl _
  | thrown w k hpc hc => exact .refl _
  | flushCut w i exit hpc hc => exact .refl _
  | finishCut w hpc hc => exact .refl _

/-- A step is an adapter's operation, or records nothing. -/
theorem move_records (hmove : Task.Move e plan elapsed id t ev t') :
    (∃ o, ev = .op o ∧ t'.context = o.apply t.context) ∨
    ((∀ o, ev ≠ .op o) ∧ SameConsumption t.context.attempts t'.context.attempts) := by
  by_cases hop : ∀ o, ev ≠ .op o
  · exact .inr ⟨hop, move_same hmove hop⟩
  · simp only [not_forall, not_not] at hop
    obtain ⟨o, rfl⟩ := hop
    cases hmove with
    | op k o hpc => exact .inl ⟨o, rfl, rfl⟩

end

/-! ### The remaining budget is valid up to one field -/

section
variable {M : Type*} [AddCommGroup M] [LinearOrder M] [IsOrderedAddMonoid M]

/-- What is left of a field that may be zero keeps its bounds. -/
theorem rest_in_range {ceiling used upper : M} (h : 0 ≤ ceiling) (hupper : ceiling ≤ upper) (hused : 0 ≤ used) :
    0 ≤ max 0 (ceiling - used) ∧ max 0 (ceiling - used) ≤ upper :=
  ⟨le_max_left _ _, (max_le h (sub_le_self _ hused)).trans hupper⟩

end

/-- Validation finds fault with nothing but archive members that are used up. -/
theorem remainingBudget_violations (plan : FetchPlan) (ctx : ExecutionContext) {elapsed : ℚ}
    (h : NoDebts ctx.attempts) (helapsed : 0 ≤ elapsed) :
    (remainingBudget plan ctx elapsed).violations =
      if ctx.consumedBudget .archiveMembers < plan.request.budget.archiveMembers then [] else ["archive_members"] := by
  have hvalid := (ResourceBudget.valid_iff _).mp plan.validBudget
  simp only [ResourceBudget.constraints, List.forall_mem_cons, List.not_mem_nil, false_imp_iff, implies_true,
    and_true, decide_eq_true_eq] at hvalid
  obtain ⟨⟨hd, hd'⟩, ⟨ha, ha'⟩, ⟨hr, hr'⟩, ⟨hb, hb'⟩, ⟨hx, hx'⟩, hpages, hdepth, ⟨hs, hs'⟩, ⟨hm, hm'⟩, hratio,
    ⟨ht, ht'⟩, hmoney⟩ := hvalid
  have hused : ∀ f, 0 ≤ ctx.consumedBudget f := h.consumedBy_nonneg
  have hfloat : ∀ f, 0 ≤ ctx.consumedFloat f := h.consumedFloatBy_nonneg
  -- the deadline is kept above zero by the code itself
  have hdeadline : 0 < max (1 / 1000) (plan.request.budget.deadlineSeconds - elapsed) ∧
      max (1 / 1000) (plan.request.budget.deadlineSeconds - elapsed) ≤ 3600 :=
    ⟨lt_max_of_lt_left (by norm_num), max_le (by norm_num) ((sub_le_self _ helapsed).trans hd')⟩
  have hattempts := rest_in_range ha ha' (Int.natCast_nonneg ctx.attempts.length)
  have hredirects := rest_in_range hr hr' (hused .redirects)
  have hbytes := rest_in_range hb hb' (hused .bytes)
  have hexpanded := rest_in_range hx hx' (hused .decompressedBytes)
  have hseconds := rest_in_range hs hs' (hfloat .browserSeconds)
  have htokens := rest_in_range ht ht' (hused .modelTokens)
  have hceiling := (rest_in_range hmoney (le_refl _) (hfloat .monetaryCeiling)).1
  -- and nothing keeps the archive members above it
  have hmembers : (1 ≤ max 0 (plan.request.budget.archiveMembers - ctx.consumedBudget .archiveMembers) ∧
      max 0 (plan.request.budget.archiveMembers - ctx.consumedBudget .archiveMembers) ≤ 1000000) ↔
      ctx.consumedBudget .archiveMembers < plan.request.budget.archiveMembers := by
    have := hused .archiveMembers
    omega
  simp only [ResourceBudget.violations, ResourceBudget.constraints, remainingBudget, hdeadline, hattempts, hredirects,
    hbytes, hexpanded, hpages, hdepth, hseconds, hmembers, hratio, htokens, hceiling, and_self, decide_true,
    Bool.not_true, List.filter_cons, List.filter_nil, Bool.false_eq_true, if_false]
  split <;> rename_i hlt <;> simp_all

/-! ### Runs -/

theorem mergeAll_noDebts {baseline : ContextLengths} {ctx : ExecutionContext} {branches : List ExecutionContext}
    (h : NoDebts ctx.attempts) (hbranches : ∀ b ∈ branches, NoDebts b.attempts) :
    NoDebts (mergeAll baseline ctx branches).attempts := by
  rw [mergeAll_attempts]
  refine h.append fun a ha => ?_
  obtain ⟨added, hadded, ha⟩ := List.mem_flatten.mp ha
  obtain ⟨b, hb, rfl⟩ := List.mem_map.mp hadded
  exact hbranches b hb a (List.mem_of_mem_drop ha)

theorem move_noDebts {e : Engine} {plan : FetchPlan} {elapsed : ℚ} {id : Nat} {t t' : Task} {ev : TaskEvent}
    (hmove : Task.Move e plan elapsed id t ev t') (h : NoDebts t.context.attempts)
    (hrule : ∀ o ∈ ev.op?, fitsRemaining t.context o = true) : NoDebts t'.context.attempts := by
  rcases move_records hmove with ⟨o, rfl, heq⟩ | ⟨-, hsame⟩
  · rw [heq]
    exact noDebts_apply h (hrule o rfl)
  · exact hsame.noDebts h

theorem fitsRemaining_carries (e : Engine) (plan : FetchPlan) :
    Carries e plan FitsRemaining (fun l => NoDebts l.context.attempts)
      (fun _ t => NoDebts t.context.attempts) where
  single l node hL _ := hL
  branch l first i node hL _ _ _ := hL
  move ctx t ev t' elapsed id hI hrule hmove := move_noDebts hmove hI hrule
  cancel ctx t reason hI _ _ := hI
  skipDependencies l node hL _ _ _ := hL
  skipFallback l node hL _ _ _ _ _ _ := hL
  resume l t r hL _ hI _ := hI
  join l first b hL hof hI _ := by
    refine mergeAll_noDebts hL fun ctx hctx => ?_
    obtain ⟨br, hbr, rfl⟩ := List.mem_map.mp hctx
    obtain ⟨i, hi⟩ := List.mem_iff_getElem?.mp hbr
    exact hI i br hi

/-- What a task used of the archive members: nothing, or less than it was given. -/
structure Task.Sparing (ctx : ExecutionContext) (t : Task) : Prop where
  request : t.context.request = ctx.request
  noDebts : NoDebts t.context.attempts
  length : ctx.attempts.length ≤ t.context.attempts.length
  before : consumedBy ctx.attempts .archiveMembers ≤
    consumedBy (t.context.attempts.take ctx.attempts.length) .archiveMembers
  spare : consumedBy t.context.attempts .archiveMembers = consumedBy ctx.attempts .archiveMembers ∨
    consumedBy t.context.attempts .archiveMembers < ctx.request.budget.archiveMembers

/-- A task that has done nothing. -/
theorem sparing_refl {ctx : ExecutionContext} {t : Task} (h : t.context = ctx) (hr : NoDebts ctx.attempts) :
    t.Sparing ctx := by
  subst h
  exact ⟨rfl, hr, le_refl _, by rw [List.take_length], .inl rfl⟩

/-- What the attempts before a place recorded does not shrink. -/
theorem consumedBy_take_apply {ctx : ExecutionContext} {o : ContextOp} {f : IntField} {n : Nat}
    (hrecords : 0 ≤ recorded ctx.attempts f o) (hn : n ≤ ctx.attempts.length) :
    consumedBy (ctx.attempts.take n) f ≤ consumedBy ((o.apply ctx).attempts.take n) f := by
  cases o with
  | addAttempt a =>
    simp only [ContextOp.apply]
    rw [List.take_append_of_le_length hn]
  | setAttempt i a =>
    simp only [ContextOp.apply, List.take_set]
    cases hi : (ctx.attempts.take n)[i]? with
    | none => rw [List.set_eq_of_length_le (List.getElem?_eq_none_iff.mp hi)]
    | some old =>
      have hset := Lib.Lists.sum_map_set (fun a : FetchAttempt => a.consumedBudget.int f) hi a
      have hold : ctx.attempts[i]? = some old := by
        rw [List.getElem?_take] at hi
        split at hi
        · exact hi
        · cases hi
      simp only [recorded, hold, Option.map_some, Option.getD_some] at hrecords
      simp only [consumedBy]
      omega
  | _ => exact le_refl _

theorem move_sparing {e : Engine} {plan : FetchPlan} {elapsed : ℚ} {id : Nat} {t t' : Task} {ev : TaskEvent}
    {ctx : ExecutionContext} (hmove : Task.Move e plan elapsed id t ev t') (h : t.Sparing ctx)
    (hrule : ∀ o ∈ ev.op?, (fitsRemaining t.context o && sparesMember t.context o) = true) : t'.Sparing ctx := by
  have hgrows := hmove.follows.grows
  have hnoDebts := move_noDebts hmove h.noDebts fun o ho => (Bool.and_eq_true _ _ ▸ hrule o ho).1
  refine ⟨hgrows.request.trans h.request, hnoDebts, h.length.trans hgrows.attempts, ?_, ?_⟩
  · rcases move_records hmove with ⟨o, rfl, heq⟩ | ⟨-, hsame⟩
    · have hfits := (Bool.and_eq_true _ _ ▸ hrule o rfl).1
      rw [heq]
      exact h.before.trans (consumedBy_take_apply (fitsRemaining_int hfits .archiveMembers).1 h.length)
    · have htake := congrArg (fun cs => (cs.map fun c : Consumption => c.int .archiveMembers).sum)
        (hsame.take h.length)
      have heq : consumedBy (t'.context.attempts.take ctx.attempts.length) .archiveMembers =
          consumedBy (t.context.attempts.take ctx.attempts.length) .archiveMembers := by
        simpa [consumedBy, Function.comp_def] using htake
      rw [heq]
      exact h.before
  · rcases move_records hmove with ⟨o, rfl, heq⟩ | ⟨-, hsame⟩
    · have hspares := (Bool.and_eq_true _ _ ▸ hrule o rfl).2
      rw [heq, consumedBy_apply]
      simp only [sparesMember, Bool.or_eq_true, beq_iff_eq, decide_eq_true_eq] at hspares
      rcases hspares with hzero | hless
      · rw [hzero, add_zero]
        exact h.spare
      · by_cases hzero : recorded t.context.attempts .archiveMembers o = 0
        · rw [hzero, add_zero]
          exact h.spare
        · have hfits := (fitsRemaining_int (Bool.and_eq_true _ _ ▸ hrule o rfl).1 .archiveMembers).1
          simp only [ExecutionContext.remainingBudget, ExecutionContext.consumedBudget, h.request,
            ResourceBudget.int] at hless
          omega
    · rw [hsame.consumedBy]
      exact h.spare

/-- What a branch brings back of the archive members: nothing, or less than its share. -/
theorem Task.Sparing.added {ctx : ExecutionContext} {t : Task} {n i : Nat} (h : t.Sparing (branchContext ctx n i)) :
    usedBy (added (.capture ctx) t.context) .archiveMembers = 0 ∨
      usedBy (added (.capture ctx) t.context) .archiveMembers < share (left ctx .archiveMembers) n i := by
  have hceiling := branchBudget_int ctx n i (f := .archiveMembers) (by simp [partitionedFields])
  have hsplit := usedBy_append (t.context.attempts.take ctx.attempts.length)
    (t.context.attempts.drop ctx.attempts.length) .archiveMembers
  rw [List.take_append_drop] at hsplit
  have hadded : 0 ≤ consumedBy (t.context.attempts.drop ctx.attempts.length) .archiveMembers :=
    (h.noDebts.sublist (List.drop_sublist _ _)).consumedBy_nonneg _
  have hbefore : consumedBy ctx.attempts .archiveMembers ≤
      consumedBy (t.context.attempts.take ctx.attempts.length) .archiveMembers := h.before
  have hspare : consumedBy t.context.attempts .archiveMembers = consumedBy ctx.attempts .archiveMembers ∨
      consumedBy t.context.attempts .archiveMembers < (branchBudget ctx n i).archiveMembers := h.spare
  simp only [used, usedBy, ResourceBudget.int, Executor.added, ContextLengths.capture] at hceiling hsplit ⊢
  omega

/-- Branches that leave something of their shares leave something of the whole. -/
theorem mergeAll_spares {plan : FetchPlan} {l : Locals} {first : PlanNode} {b : Batch} (hof : b.Of plan l first)
    (hI : ∀ (i : Nat) (br : Branch), b.branches[i]? = some br →
      br.task.Sparing (branchContext l.context b.branches.length i))
    (hless : l.context.consumedBudget .archiveMembers < l.context.request.budget.archiveMembers) :
    (mergeAll b.baseline l.context (b.branches.map (·.task.context))).consumedBudget .archiveMembers <
      l.context.request.budget.archiveMembers := by
  have hpos : 0 < b.branches.length := by
    have := hof.many
    omega
  have hkeep : List.Forall₂ (fun x y : Int => 0 ≤ y ∧ (x = 0 ∨ x < y))
      ((b.branches.map (·.task.context)).map fun branch =>
        usedBy (added (.capture l.context) branch) .archiveMembers)
      ((List.range b.branches.length).map (share (left l.context .archiveMembers) b.branches.length)) := by
    refine List.forall₂_iff_get.mpr ⟨by simp, fun i h₁ h₂ => ?_⟩
    simp only [List.get_eq_getElem, List.getElem_map, List.getElem_range]
    have hi : i < b.branches.length := by simpa using h₁
    exact ⟨share_nonneg (left_nonneg _ _) _ _, (hI i _ (List.getElem?_eq_getElem hi)).added⟩
  have hsum := (Lib.Lists.sum_zero_or_lt hkeep).2
  rw [sum_share _ _ hpos] at hsum
  have hmerged := used_mergeAll b.baseline l.context (b.branches.map (·.task.context)) .archiveMembers
  rw [hof.baseline] at hmerged ⊢
  change consumedBy l.context.attempts .archiveMembers < _ at hless
  show consumedBy (mergeAll _ _ _).attempts .archiveMembers < _
  simp only [used, usedBy, left, ResourceBudget.int] at hmerged hsum
  omega

theorem sparesMember_carries (e : Engine) (plan : FetchPlan) :
    Carries e plan SparesMember
      (fun l => l.context.request = plan.executionRequest ∧ NoDebts l.context.attempts ∧
        l.context.consumedBudget .archiveMembers < l.context.request.budget.archiveMembers)
      Task.Sparing where
  single l node hL _ := sparing_refl rfl hL.2.1
  branch l first i node hL _ _ _ := sparing_refl rfl hL.2.1
  move ctx t ev t' elapsed id hI hrule hmove := move_sparing hmove hI hrule
  cancel ctx t reason hI _ _ := ⟨hI.request, hI.noDebts, hI.length, hI.before, hI.spare⟩
  skipDependencies l node hL _ _ _ := hL
  skipFallback l node hL _ _ _ _ _ _ := hL
  resume l t r hL _ hI _ := by
    refine ⟨hI.request.trans hL.1, hI.noDebts, ?_⟩
    show consumedBy t.context.attempts .archiveMembers < t.context.request.budget.archiveMembers
    rw [hI.request]
    rcases hI.spare with heq | hlt
    · rw [heq]
      exact hL.2.2
    · exact hlt
  join l first b hL hof hI _ := by
    have hrequest : (mergeAll b.baseline l.context (b.branches.map (·.task.context))).request = l.context.request :=
      mergeAll_request _ _ _
    refine ⟨hrequest.trans hL.1, mergeAll_noDebts hL.2.1 fun ctx hctx => ?_, ?_⟩
    · obtain ⟨br, hbr, rfl⟩ := List.mem_map.mp hctx
      obtain ⟨i, hi⟩ := List.mem_iff_getElem?.mp hbr
      exact (hI i br hi).noDebts
    · show _ < (mergeAll b.baseline l.context _).request.budget.archiveMembers
      rw [hrequest]
      exact mergeAll_spares hof hI hL.2.2

theorem closingOutcomes_fields (plan : FetchPlan) (ctx : ExecutionContext) :
    (closingOutcomes plan ctx).attempts = ctx.attempts ∧ (closingOutcomes plan ctx).artifacts = ctx.artifacts := by
  simp only [closingOutcomes]
  split <;> exact ⟨rfl, rfl⟩

/-- The fields the final validation rejects. -/
theorem result_violations (plan : FetchPlan) {l : Locals} {elapsed : ℚ} (ledger : List ProvenanceEvent)
    (h : NoDebts l.context.attempts) (helapsed : 0 ≤ elapsed) :
    (l.result plan elapsed ledger).remainingBudget.violations =
      if l.context.consumedBudget .archiveMembers < plan.request.budget.archiveMembers then []
      else ["archive_members"] := by
  obtain ⟨hattempts, -⟩ := closingOutcomes_fields plan l.context
  have hconsumed : (closingOutcomes plan l.context).consumedBudget .archiveMembers =
      l.context.consumedBudget .archiveMembers := by
    rw [ExecutionContext.consumedBudget, hattempts, ExecutionContext.consumedBudget]
  have hv := remainingBudget_violations plan (closingOutcomes plan l.context) (hattempts ▸ h) helapsed
  rw [hconsumed] at hv
  exact hv

/-- **Every run returns its result unless its archive members are used up.** When
adapters record only what fits, a run takes boundedly many steps besides its adapters'
work and is never stuck; and once it is over, it has returned a result with a valid
remaining budget and all its artifacts exactly if fewer archive members were recorded
than the request allows. They are, if whoever records some leaves one over. -/
theorem returns_unless_members_used_up (e : Engine) (plan : FetchPlan) (actions : List Action) (s : State)
    (hfits : (machine e plan).Obeys FitsRemaining.rule (.initial plan) actions)
    (hrun : (machine e plan).run (.initial plan) actions = some s) :
    actions.countP Action.isOwn ≤ (State.initial plan).cost plan + actions.countP Action.isWork ∧
    (s.phase.over = false → ∃ a s', a.isOwn = true ∧ s.step e plan a = some s') ∧
    (s.phase.over = true →
      ((∃ r, s.phase = .returned r ∧ r.remainingBudget.Valid ∧ r.artifacts = s.locals.context.artifacts) ↔
        s.locals.context.consumedBudget .archiveMembers < plan.request.budget.archiveMembers)) ∧
    ((machine e plan).Obeys SparesMember.rule (.initial plan) actions →
      s.locals.context.consumedBudget .archiveMembers < plan.request.budget.archiveMembers) := by
  have hnone : NoDebts (State.initial plan).locals.context.attempts := fun a ha => by cases ha
  have hinv := (fitsRemaining_carries e plan).run hnone hfits hrun
  refine ⟨?_, run_goes_on hrun, fun hover => ?_, fun hspares => ?_⟩
  · have hbound := own_steps_bounded hrun
    omega
  · have hphase := hinv.phase
    cases hs : s.phase with
    | returned r =>
      rw [hs] at hphase
      obtain ⟨-, elapsed, ledger, helapsed, rfl, hvalid⟩ := hphase
      have hv := result_violations plan ledger hinv.locals helapsed
      constructor
      · intro _
        by_contra hnot
        rw [if_neg hnot, hvalid] at hv
        cases hv
      · intro _
        exact ⟨_, rfl, hvalid, (closingOutcomes_fields plan s.locals.context).2⟩
    | raised fields =>
      rw [hs] at hphase
      obtain ⟨-, elapsed, ledger, helapsed, rfl, hne⟩ := hphase
      have hv := result_violations plan ledger hinv.locals helapsed
      constructor
      · rintro ⟨r, heq, -⟩
        cases heq
      · intro hlt
        rw [if_pos hlt] at hv
        exact absurd hv hne
    | _ =>
      rw [hs] at hover
      cases hover
  · have hmembers : 0 < plan.executionRequest.budget.archiveMembers := by
      rw [plan.budget_eq]
      exact plan.validBudget.archiveMembers_pos
    have hspare := ((sparesMember_carries e plan).run ⟨rfl, hnone, hmembers⟩ hspares hrun).locals
    rw [hspare.1, plan.budget_eq] at hspare
    exact hspare.2.2

/-- An archive with two members allowed. -/
def archivePlan : FetchPlan where
  request := {target := "https://example.org/a.zip", outputRequirements := ["zip_archive"], budget := {archiveMembers := 2}}
  nodes := [{id := "http", capabilityId := "http_get", adapter := "http"},
    {id := "archive", capabilityId := "zip_archive", adapter := "archive", dependencies := ["http"]
     stopOnAcceptance := true}]

/-- The archive is fetched and this many members are found in it. -/
def archiveRun (members : Nat) : List Action :=
  [.advance, .node .resume, .node .resume,
    .node (.op (.addAttempt {capabilityId := "http_get", status := .succeeded, finished := true})),
    .node (.op (.addArtifact {artifactId := 0})), .node .returns, .node .resume, .advance,
    .advance, .node .resume, .node .resume,
    .node (.op (.addAttempt {capabilityId := "zip_archive", status := .running})),
    .node (.op (.addArtifact {artifactId := 1, representation := "archive_manifest"})),
    .node (.op (.setAccepted true)),
    .node (.op (.setAttempt 1 {
      capabilityId := "zip_archive", status := .succeeded, finished := true
      consumedBudget := {int := fun f => if f = .archiveMembers then members else 0}})),
    .node .returns, .node .resume, .advance, .advance]

theorem returns_unless_members_used_up_archive :
    ∃ s, (machine sampleEngine archivePlan).run (.initial archivePlan) (archiveRun 1) = some s ∧
      s.phase.over = true ∧
      ∃ r, s.phase = .returned r ∧ r.remainingBudget.Valid ∧ r.artifacts = s.locals.context.artifacts := by
  have hover : ((machine sampleEngine archivePlan).run (.initial archivePlan) (archiveRun 1)).map
      (·.phase.over) = some true := by decide +kernel
  obtain ⟨s, hrun, hs⟩ := Option.map_eq_some_iff.mp hover
  obtain ⟨-, -, hiff, hspares⟩ := returns_unless_members_used_up sampleEngine archivePlan (archiveRun 1) s
    (by decide +kernel) hrun
  exact ⟨s, hrun, hs, (hiff hs).mpr (hspares (by decide +kernel))⟩

/-- The fields that made the final validation raise. -/
def Phase.rejected : Phase → List String
  | .raised fields => fields
  | _ => []

/-- An archive with exactly the allowed members: what was recorded fits, and the run
raises after all its work with two artifacts in hand. -/
theorem exact_members_lose_result :
    ∃ s fields, (machine sampleEngine archivePlan).run (.initial archivePlan) (archiveRun 2) = some s ∧
      (machine sampleEngine archivePlan).Obeys FitsRemaining.rule (.initial archivePlan) (archiveRun 2) ∧
      s.phase = .raised fields ∧ fields = ["archive_members"] ∧
      s.locals.context.artifacts.map (·.artifactId) = [0, 1] := by
  have hend : ((machine sampleEngine archivePlan).run (.initial archivePlan) (archiveRun 2)).map
      (fun s => (s.phase.rejected, s.locals.context.artifacts.map (·.artifactId))) =
        some (["archive_members"], [0, 1]) := by decide +kernel
  obtain ⟨s, hrun, hs⟩ := Option.map_eq_some_iff.mp hend
  obtain ⟨hrejected, hartifacts⟩ := Prod.mk.inj hs
  unfold Phase.rejected at hrejected
  split at hrejected
  · rename_i fields hphase
    exact ⟨s, fields, hrun, by decide +kernel, hphase, hrejected, hartifacts⟩
  · cases hrejected

end Fetech.Executor
