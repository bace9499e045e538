import Fetech.Executor.Parallel
import Mathlib.Tactic.Ring
import Mathlib.Algebra.Order.Group.Unbundled.Abs

/-! The shares of a parallel batch add up.

A branch starts from a copy of the run's history, so what was consumed before the
batch stands in every branch's context and in every branch's ceiling. Above it, the
ceilings split what was left exactly, and merging takes from each branch only what it
added. -/
namespace Fetech.Executor

/-! ### Shares -/

theorem sum_share_below (r : Int) (n : Nat) (hn : 0 < n) (m : Nat) :
    ((List.range m).map (share r n)).sum = m * (r / n) + min (m : Int) (r % n) := by
  have hmod : 0 ≤ r % n := Int.emod_nonneg r (by omega)
  induction m with
  | zero =>
    simp only [List.range_zero, List.map_nil, List.sum_nil]
    omega
  | succ m ih =>
    have hmul : ((m + 1 : Nat) : Int) * (r / n) = m * (r / n) + r / n := by push_cast; ring
    rw [List.range_succ, List.map_append, List.sum_append, ih, hmul]
    simp only [List.map_cons, List.map_nil, List.sum_cons, List.sum_nil, share]
    split <;> omega

/-- The shares of all branches are the whole. -/
theorem sum_share (r : Int) (n : Nat) (hn : 0 < n) : ((List.range n).map (share r n)).sum = r := by
  have hlt : r % n < n := Int.emod_lt_of_pos r (by omega)
  have hdiv : (n : Int) * (r / n) + r % n = r := Int.mul_ediv_add_emod r n
  rw [sum_share_below r n hn n]
  omega

theorem share_le_succ (r : Int) (n i j : Nat) : share r n i ≤ share r n j + 1 := by
  unfold share
  split <;> split <;> omega

theorem share_nonneg {r : Int} (hr : 0 ≤ r) (n i : Nat) : 0 ≤ share r n i := by
  have h : 0 ≤ r / n := Int.ediv_nonneg hr (by omega)
  unfold share
  split <;> omega

/-- With at least as much left as there are branches, none goes away empty. -/
theorem one_le_share {r : Int} {n : Nat} (hn : 0 < n) (hr : (n : Int) ≤ r) (i : Nat) : 1 ≤ share r n i := by
  have h : 1 ≤ r / n := (Int.le_ediv_iff_mul_le (by omega)).mpr (by omega)
  unfold share
  split <;> omega

/-! ### Ceilings -/

/-- The fields `_partition_parallel_budgets` splits in whole numbers. -/
def partitionedFields : List IntField :=
  [.attempts, .redirects, .bytes, .decompressedBytes, .archiveMembers, .modelTokens]

/-- What is left of a field in a context. -/
def left (ctx : ExecutionContext) (f : IntField) : Int := max 0 (ctx.request.budget.int f - used ctx f)

theorem left_nonneg (ctx : ExecutionContext) (f : IntField) : 0 ≤ left ctx f := le_max_left _ _

/-- A branch may use its share above what was used before. -/
theorem branchBudget_int (ctx : ExecutionContext) (n i : Nat) {f : IntField} (hf : f ∈ partitionedFields) :
    (branchBudget ctx n i).int f = used ctx f + share (left ctx f) n i := by
  simp only [partitionedFields, List.mem_cons, List.not_mem_nil, or_false] at hf
  rcases hf with rfl | rfl | rfl | rfl | rfl | rfl <;> rfl

theorem partition_eq (ctx : ExecutionContext) {n : Nat} (hn : 0 < n) :
    partitionParallelBudgets ctx n = some ((List.range n).map (branchBudget ctx n)) := by
  rw [partitionParallelBudgets, if_neg (by omega)]

/-! ### Merging -/

theorem usedBy_append (a b : List FetchAttempt) (f : IntField) : usedBy (a ++ b) f = usedBy a f + usedBy b f := by
  cases f <;> simp [usedBy, consumedBy]

/-- What a branch added since the baseline. -/
def added (baseline : ContextLengths) (branch : ExecutionContext) : List FetchAttempt :=
  branch.attempts.drop baseline.attempts

/-- Every list of a context is merged the same way: what was there, then each branch's
additions in plan order. -/
theorem mergeAll_list {α : Type} (field : ExecutionContext → List α) (baseline : ContextLengths) (len : Nat)
    (h : ∀ ctx branch, field (mergeParallelContext baseline ctx branch) = field ctx ++ (field branch).drop len)
    (ctx : ExecutionContext) (branches : List ExecutionContext) :
    field (mergeAll baseline ctx branches) = field ctx ++ (branches.map fun b => (field b).drop len).flatten := by
  induction branches generalizing ctx with
  | nil => simp [mergeAll]
  | cons branch rest ih =>
    have hrest := ih (mergeParallelContext baseline ctx branch)
    rw [mergeAll] at hrest
    rw [mergeAll, List.foldl_cons, hrest, h]
    simp

theorem mergeAll_attempts (baseline : ContextLengths) (ctx : ExecutionContext) (branches : List ExecutionContext) :
    (mergeAll baseline ctx branches).attempts = ctx.attempts ++ (branches.map (added baseline)).flatten :=
  mergeAll_list (·.attempts) baseline baseline.attempts (fun _ _ => rfl) ctx branches

theorem mergeAll_outcomes (baseline : ContextLengths) (ctx : ExecutionContext) (branches : List ExecutionContext) :
    (mergeAll baseline ctx branches).capabilityOutcomes = ctx.capabilityOutcomes ++
      (branches.map fun b => b.capabilityOutcomes.drop baseline.capabilityOutcomes).flatten :=
  mergeAll_list (·.capabilityOutcomes) baseline baseline.capabilityOutcomes (fun _ _ => rfl) ctx branches

theorem mergeAll_artifacts (baseline : ContextLengths) (ctx : ExecutionContext) (branches : List ExecutionContext) :
    (mergeAll baseline ctx branches).artifacts = ctx.artifacts ++
      (branches.map fun b => b.artifacts.drop baseline.artifacts).flatten :=
  mergeAll_list (·.artifacts) baseline baseline.artifacts (fun _ _ => rfl) ctx branches

theorem mergeAll_request (baseline : ContextLengths) (ctx : ExecutionContext) (branches : List ExecutionContext) :
    (mergeAll baseline ctx branches).request = ctx.request := by
  induction branches generalizing ctx with
  | nil => rfl
  | cons branch rest ih => exact ih (mergeParallelContext baseline ctx branch)

theorem used_mergeAll (baseline : ContextLengths) (ctx : ExecutionContext) (branches : List ExecutionContext)
    (f : IntField) :
    used (mergeAll baseline ctx branches) f =
      used ctx f + (branches.map fun branch => usedBy (added baseline branch) f).sum := by
  have hflat : usedBy (branches.map (added baseline)).flatten f =
      (branches.map fun branch => usedBy (added baseline branch) f).sum := by
    induction branches with
    | nil => cases f <;> rfl
    | cons branch rest ih => simp [usedBy_append, ih]
  rw [used, mergeAll_attempts, usedBy_append, hflat, used]

/-- Branches that keep to their ceilings use no more together than was left. -/
theorem used_mergeAll_le (ctx : ExecutionContext) {n : Nat} (hn : 0 < n) {f : IntField}
    (hf : f ∈ partitionedFields) (branches : List ExecutionContext)
    (hkeep : List.Forall₂ (fun branch (budget : ResourceBudget) =>
      used ctx f + usedBy (added (.capture ctx) branch) f ≤ budget.int f)
      branches ((List.range n).map (branchBudget ctx n))) :
    used (mergeAll (.capture ctx) ctx branches) f ≤ used ctx f + left ctx f := by
  have hsum : ∀ (bs : List ExecutionContext) (is : List Nat),
      List.Forall₂ (fun branch (budget : ResourceBudget) =>
        used ctx f + usedBy (added (.capture ctx) branch) f ≤ budget.int f) bs (is.map (branchBudget ctx n)) →
      (bs.map fun branch => usedBy (added (.capture ctx) branch) f).sum ≤
        (is.map (share (left ctx f) n)).sum := by
    intro bs is h
    induction is generalizing bs with
    | nil =>
      cases h
      exact le_refl _
    | cons i is ih =>
      rw [List.map_cons] at h
      cases h with
      | cons hb hrest =>
        have htail := ih _ hrest
        rw [branchBudget_int ctx n i hf] at hb
        simp only [List.map_cons, List.sum_cons]
        omega
  rw [used_mergeAll]
  have h := hsum branches (List.range n) hkeep
  rw [sum_share _ n hn] at h
  omega

/-- **The batch's budget is conserved**: for every split field the branches' allowances
above what was used before sum to exactly what was left and differ by at most one, each
branch has an attempt, and branches that keep to their own ceilings leave the merged run
within the original ceiling, or where it was if that was already exceeded. -/
theorem parallel_budget_conserved (ctx : ExecutionContext) (n : Nat) (hn : 1 ≤ n)
    (hattempts : (n : Int) ≤ ctx.request.budget.attempts - ctx.attempts.length) :
    ∃ budgets, partitionParallelBudgets ctx n = some budgets ∧ budgets.length = n ∧
      (∀ budget ∈ budgets, 1 ≤ budget.attempts - ctx.attempts.length) ∧
      ∀ f ∈ partitionedFields,
        (budgets.map fun budget => budget.int f - used ctx f).sum =
          max 0 (ctx.request.budget.int f - used ctx f) ∧
        (∀ b ∈ budgets, ∀ b' ∈ budgets, |b.int f - b'.int f| ≤ 1) ∧
        ∀ branches : List ExecutionContext,
          List.Forall₂ (fun branch (budget : ResourceBudget) =>
            used ctx f + usedBy (branch.attempts.drop ctx.attempts.length) f ≤ budget.int f) branches budgets →
          used (mergeAll (.capture ctx) ctx branches) f ≤ max (ctx.request.budget.int f) (used ctx f) := by
  refine ⟨_, partition_eq ctx hn, by simp, ?_, ?_⟩
  · intro budget hb
    obtain ⟨i, -, rfl⟩ := List.mem_map.mp hb
    have hleft : (n : Int) ≤ left ctx .attempts := le_trans hattempts (le_max_right _ _)
    have hone := one_le_share hn hleft i
    have hint := branchBudget_int ctx n i (f := .attempts) (by simp [partitionedFields])
    simp only [ResourceBudget.int, used, usedBy] at hint
    omega
  · intro f hf
    refine ⟨?_, ?_, ?_⟩
    · have hmap : ((List.range n).map (branchBudget ctx n)).map (fun b => b.int f - used ctx f) =
          (List.range n).map (share (left ctx f) n) := by
        rw [List.map_map]
        refine List.map_congr_left fun i _ => ?_
        simp [branchBudget_int ctx n i hf]
      rw [hmap, sum_share _ n hn]
      rfl
    · intro b hb b' hb'
      obtain ⟨i, -, rfl⟩ := List.mem_map.mp hb
      obtain ⟨j, -, rfl⟩ := List.mem_map.mp hb'
      have hij := share_le_succ (left ctx f) n i j
      have hji := share_le_succ (left ctx f) n j i
      rw [branchBudget_int ctx n i hf, branchBudget_int ctx n j hf, abs_le']
      omega
    · intro branches hkeep
      have h := used_mergeAll_le ctx hn hf branches hkeep
      unfold left at h
      omega

/-- Two branches with five of six attempts left. -/
theorem parallel_budget_conserved_pair :
    ∃ budgets, partitionParallelBudgets
        {request := {target := "https://example.org/"}, attempts := [{capabilityId := "http_get"}]} 2 = some budgets ∧
      budgets.length = 2 := by
  obtain ⟨budgets, hsome, hlength, -⟩ := parallel_budget_conserved
    {request := {target := "https://example.org/"}, attempts := [{capabilityId := "http_get"}]} 2
    (by decide) (by decide)
  exact ⟨budgets, hsome, hlength⟩

end Fetech.Executor
