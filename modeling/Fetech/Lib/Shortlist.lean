import Mathlib.Data.List.Nodup
import Mathlib.Algebra.BigOperators.Group.List.Basic
import Mathlib.Algebra.GroupWithZero.Nat
import Mathlib.Algebra.Order.Group.Nat

/-! Lists that are cut down: to the first of each key, and from the end to what a bound allows.

What is left stands in the list that was cut, in its order; what was left out is counted. -/
namespace Lib.Shortlist
variable {α β : Type*}

/-! ### The first of each key -/

section
variable [DecidableEq β] (key : α → β)

/-- The elements whose key has not been seen. -/
def firsts : List β → List α → List α
  | _, [] => []
  | seen, a :: rest => if key a ∈ seen then firsts seen rest else a :: firsts (key a :: seen) rest

variable {key}

theorem firsts_sublist (seen : List β) (l : List α) : List.Sublist (firsts key seen l) l := by
  induction l generalizing seen with
  | nil => exact List.Sublist.slnil
  | cons a rest ih =>
    rw [firsts]
    split
    · exact (ih seen).cons a
    · exact (ih _).cons_cons a

theorem notMem_of_mem_firsts {seen : List β} {l : List α} {a : α} (h : a ∈ firsts key seen l) : key a ∉ seen := by
  induction l generalizing seen with
  | nil => cases h
  | cons b rest ih =>
    rw [firsts] at h
    split at h
    · exact ih h
    · rename_i hb
      obtain rfl | h := List.mem_cons.mp h
      · exact hb
      · exact fun hseen => ih h (List.mem_cons_of_mem _ hseen)

/-- No key is left twice. -/
theorem nodup_firsts (seen : List β) (l : List α) : ((firsts key seen l).map key).Nodup := by
  induction l generalizing seen with
  | nil => exact List.nodup_nil
  | cons a rest ih =>
    rw [firsts]
    split
    · exact ih seen
    · rw [List.map_cons, List.nodup_cons]
      refine ⟨fun hmem => ?_, ih _⟩
      obtain ⟨b, hb, hkey⟩ := List.mem_map.mp hmem
      exact notMem_of_mem_firsts hb (hkey ▸ List.mem_cons_self)

/-- Of a list with elements one is left. -/
theorem firsts_eq_nil {l : List α} : firsts key [] l = [] ↔ l = [] := by
  cases l with
  | nil => exact Iff.rfl
  | cons a rest => simp [firsts]

end

/-! ### What a bound allows -/

section
variable (weight : α → Nat) (limit : Nat)

/-- Elements are taken from the front, and counted, until the weight of the rest is within the limit. -/
def shed : List α → Nat → List α × Nat
  | [], count => ([], count)
  | a :: rest, count => if limit < ((a :: rest).map weight).sum then shed rest (count + 1) else (a :: rest, count)

variable {weight limit}

theorem shed_suffix (l : List α) (count : Nat) : List.IsSuffix (shed weight limit l count).1 l := by
  induction l generalizing count with
  | nil => exact List.suffix_refl _
  | cons a rest ih =>
    rw [shed]
    split
    · exact (ih _).trans (List.suffix_cons a rest)
    · exact List.suffix_refl _

theorem shed_sum_le (l : List α) (count : Nat) : ((shed weight limit l count).1.map weight).sum ≤ limit := by
  induction l generalizing count with
  | nil => exact Nat.zero_le _
  | cons a rest ih =>
    rw [shed]
    split
    · exact ih _
    · exact Nat.le_of_not_lt ‹_›

/-- What is left and what was taken are all there was. -/
theorem shed_count (l : List α) (count : Nat) :
    (shed weight limit l count).1.length + (shed weight limit l count).2 = l.length + count := by
  induction l generalizing count with
  | nil => rfl
  | cons a rest ih =>
    rw [shed]
    split
    · rw [ih, List.length_cons]
      omega
    · rfl

end

end Lib.Shortlist
