import Mathlib.Data.List.ReduceOption
import Mathlib.Data.List.Basic

/-! Tasks that run side by side and are waited for together (`asyncio.gather`).

They end in some order: any permutation of their places. What they return is in the order of
the tasks all the same (`gather_of_ok`); if one raises, the wait ends with what one of them
raised (`gather_of_error`). -/
namespace Lib
variable {ε α : Type}

/-- The task at a place ends: its result goes there, its exception ends the wait. -/
def settle (tasks : List (Except ε α)) (slots : List (Option α)) (i : Nat) : Except ε (List (Option α)) :=
  match tasks[i]? with
  | none => .ok slots
  | some (.ok a) => .ok (slots.set i (some a))
  | some (.error err) => .error err

def gather (tasks : List (Except ε α)) (order : List Nat) : Except ε (List α) := do
  let slots ← order.foldlM (settle tasks) (List.replicate tasks.length none)
  return slots.reduceOption

/-- The places of the tasks that have ended are filled, the others are as they were. -/
theorem foldlM_settle (results : List α) (order : List Nat) {slots : List (Option α)} (hlen : slots.length = results.length) :
    ∃ filled, order.foldlM (settle (ε := ε) (results.map .ok)) slots = .ok filled ∧ filled.length = results.length ∧
      ∀ j, filled[j]? = if j ∈ order then results[j]?.map some else slots[j]? := by
  induction order generalizing slots with
  | nil => exact ⟨slots, rfl, hlen, fun j => by simp⟩
  | cons i rest ih =>
    have hsettle : settle (ε := ε) (results.map .ok) slots i =
        .ok (match results[i]? with | none => slots | some a => slots.set i (some a)) := by
      unfold settle
      rw [List.getElem?_map]
      cases results[i]? <;> rfl
    rw [List.foldlM_cons, hsettle]
    cases hi : results[i]? with
    | none =>
      obtain ⟨filled, hfold, hfilled, hget⟩ := ih hlen
      refine ⟨filled, hfold, hfilled, fun j => ?_⟩
      rw [hget j]
      by_cases hj : j = i
      · subst hj
        have hout : slots[j]? = none := by
          rw [List.getElem?_eq_none_iff] at hi ⊢
          omega
        simp [hi, hout]
      · simp [hj]
    | some a =>
      have hset : (slots.set i (some a)).length = results.length := by simpa using hlen
      obtain ⟨filled, hfold, hfilled, hget⟩ := ih hset
      refine ⟨filled, hfold, hfilled, fun j => ?_⟩
      rw [hget j]
      by_cases hj : j = i
      · subst hj
        have hin : j < slots.length := by
          obtain ⟨hlt, -⟩ := List.getElem?_eq_some_iff.mp hi
          omega
        simp [hi, hin]
      · simp [hj, Ne.symm hj]

/-- **Results come in the order of the tasks**, whatever the order in which these end. -/
theorem gather_of_ok (results : List α) {order : List Nat} (horder : order.Perm (List.range results.length)) :
    gather (ε := ε) (results.map .ok) order = .ok results := by
  have hempty : (List.replicate results.length (none : Option α)).length = results.length := by simp
  obtain ⟨filled, hfold, hlen, hget⟩ := foldlM_settle (ε := ε) results order hempty
  have hfilled : filled = results.map some := by
    refine List.ext_getElem? fun j => ?_
    rw [hget j, List.getElem?_map]
    split
    · rfl
    · rename_i hj
      rw [horder.mem_iff, List.mem_range, Nat.not_lt] at hj
      rw [List.getElem?_eq_none (by simpa using hj), List.getElem?_eq_none hj]
      rfl
  unfold gather
  rw [List.length_map, hfold, hfilled]
  have hreduce : (results.map some).reduceOption = results := by
    simp [List.reduceOption]
  exact congrArg Except.ok hreduce

theorem foldlM_settle_of_error {tasks : List (Except ε α)} {order : List Nat} {i : Nat} {err : ε} (hi : i ∈ order)
    (herr : tasks[i]? = some (.error err)) (slots : List (Option α)) :
    ∃ raised, .error raised ∈ tasks ∧ order.foldlM (settle tasks) slots = .error raised := by
  induction order generalizing slots with
  | nil => cases hi
  | cons k rest ih =>
    rw [List.foldlM_cons]
    unfold settle
    cases hk : tasks[k]? with
    | none =>
      refine ih ((List.mem_cons.mp hi).resolve_left fun heq => ?_) slots
      rw [heq, hk] at herr
      cases herr
    | some task =>
      cases task with
      | ok a =>
        refine ih ((List.mem_cons.mp hi).resolve_left fun heq => ?_) (slots.set k (some a))
        rw [heq, hk] at herr
        cases herr
      | error raised => exact ⟨raised, List.mem_of_getElem? hk, rfl⟩

/-- If a task raises, so does the wait. -/
theorem gather_of_error {tasks : List (Except ε α)} {order : List Nat} (horder : order.Perm (List.range tasks.length))
    {err : ε} (herr : .error err ∈ tasks) : ∃ raised, .error raised ∈ tasks ∧ gather tasks order = .error raised := by
  obtain ⟨i, hi⟩ := List.mem_iff_getElem?.mp herr
  obtain ⟨hlt, -⟩ := List.getElem?_eq_some_iff.mp hi
  have hmem : i ∈ order := horder.mem_iff.mpr (List.mem_range.mpr hlt)
  obtain ⟨raised, hraised, hfold⟩ := foldlM_settle_of_error hmem hi (List.replicate tasks.length none)
  refine ⟨raised, hraised, ?_⟩
  unfold gather
  rw [hfold]
  rfl

/-- Tasks return, all of them, or one raises. -/
theorem all_ok_or_error (tasks : List (Except ε α)) :
    (∃ results : List α, tasks = results.map .ok) ∨ ∃ err, .error err ∈ tasks := by
  induction tasks with
  | nil => exact .inl ⟨[], rfl⟩
  | cons task rest ih =>
    cases task with
    | error err => exact .inr ⟨err, List.mem_cons_self⟩
    | ok a =>
      obtain ⟨results, rfl⟩ | ⟨err, herr⟩ := ih
      · exact .inl ⟨a :: results, rfl⟩
      · exact .inr ⟨err, List.mem_cons_of_mem _ herr⟩

/-- In whatever order the tasks end, the wait ends alike. -/
theorem gather_same {tasks : List (Except ε α)} {order order' : List Nat} (h : order.Perm (List.range tasks.length))
    (h' : order'.Perm (List.range tasks.length)) : gather tasks order = gather tasks order' ∨
      (∃ err, gather tasks order = .error err) ∧ ∃ err, gather tasks order' = .error err := by
  obtain ⟨results, rfl⟩ | ⟨err, herr⟩ := all_ok_or_error tasks
  · rw [List.length_map] at h h'
    rw [gather_of_ok results h, gather_of_ok results h']
    exact .inl rfl
  · obtain ⟨raised, -, hraised⟩ := gather_of_error h herr
    obtain ⟨raised', -, hraised'⟩ := gather_of_error h' herr
    exact .inr ⟨⟨raised, hraised⟩, raised', hraised'⟩

end Lib
