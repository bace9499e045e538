import Mathlib.Data.Set.Lattice

/-! Ground logic programs and their answer sets.

A rule with a head derives it when its body holds; one without is a constraint, which no answer
set may meet. A set of atoms is an answer set if it is what its reduct derives, the program with
the negations decided in the set itself, and if it breaks no constraint. In a program that
negates in constraints alone the reduct derives the same in every set (`derived_reduct`), so that
there is one candidate and the constraints decide on it (`isAnswerSet_iff`). -/
namespace Lib.AnswerSets
variable {α : Type*}

structure Rule (α : Type*) where
  head : Option α
  positive : List α := []
  negative : List α := []

/-- A ground program; the instances of a rule with variables may be infinitely many. -/
abbrev Program (α : Type*) := Set (Rule α)

def Rule.fact (a : α) : Rule α where
  head := some a

/-- Whether the body of a rule holds in a set. -/
def Rule.Fires (r : Rule α) (M : Set α) : Prop := (∀ a ∈ r.positive, a ∈ M) ∧ ∀ a ∈ r.negative, a ∉ M

/-- The rules whose negations hold in a set, without them. -/
def reduct (P : Program α) (M : Set α) : Program α :=
  {r | ∃ s ∈ P, (∀ a ∈ s.negative, a ∉ M) ∧ r = {s with negative := []}}

/-- What follows by the rules, their negations aside. -/
inductive Derived (P : Program α) : α → Prop
  | rule {r : Rule α} {a : α} (hr : r ∈ P) (hhead : r.head = some a) (hbody : ∀ b ∈ r.positive, Derived P b) :
    Derived P a

structure IsAnswerSet (P : Program α) (M : Set α) : Prop where
  founded : M = {a | Derived (reduct P M) a}
  consistent : ∀ r ∈ P, r.head = none → ¬ r.Fires M

/-- Only constraints negate. -/
def NegatesInConstraints (P : Program α) : Prop := ∀ r ∈ P, r.head ≠ none → r.negative = []

variable {P : Program α}

theorem derived_fact {a : α} (h : Rule.fact a ∈ P) : Derived P a := .rule h rfl (List.forall_mem_nil _)

/-- What is derived is in every set that the rules are closed on. -/
theorem Derived.mem {S : Set α}
    (hS : ∀ r ∈ P, ∀ a, r.head = some a → (∀ b ∈ r.positive, b ∈ S) → a ∈ S) {a : α} (h : Derived P a) : a ∈ S := by
  induction h with
  | rule hr hhead _ ih => exact hS _ hr _ hhead ih

theorem derived_reduct (h : NegatesInConstraints P) (M : Set α) {a : α} : Derived (reduct P M) a ↔ Derived P a := by
  constructor
  · intro ha
    induction ha with
    | rule hr hhead _ ih =>
      obtain ⟨s, hs, -, rfl⟩ := hr
      exact .rule hs hhead ih
  · intro ha
    induction ha with
    | @rule r _ hr hhead _ ih =>
      have hnegative := h r hr (by rw [hhead]; exact Option.some_ne_none _)
      have hmem : {r with negative := []} ∈ reduct P M :=
        ⟨r, hr, by rw [hnegative]; exact List.forall_mem_nil _, rfl⟩
      exact .rule hmem hhead ih

/-- **The only candidate** is what the rules derive. -/
theorem isAnswerSet_iff (h : NegatesInConstraints P) {M : Set α} :
    IsAnswerSet P M ↔ M = {a | Derived P a} ∧ ∀ r ∈ P, r.head = none → ¬ r.Fires {a | Derived P a} := by
  have hreduct : {a | Derived (reduct P M) a} = {a | Derived P a} := Set.ext fun _ => derived_reduct h M
  constructor
  · intro hM
    have heq : M = {a | Derived P a} := hM.founded.trans hreduct
    exact ⟨heq, heq ▸ hM.consistent⟩
  · intro hM
    obtain ⟨heq, hconstraints⟩ := hM
    exact ⟨heq.trans hreduct.symm, heq ▸ hconstraints⟩

end Lib.AnswerSets
