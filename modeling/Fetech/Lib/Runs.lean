import Mathlib.Data.List.Basic
import Mathlib.Data.List.Induction

/-! Machines that take one action at a time, and what holds along their runs.

A `Machine` says what an action does to a state, and `none` where the action
cannot happen there. A run is a list of actions; quantifying over all lists is
quantifying over every order of steps. `Obeys` asks a rule of every step of a
run, in the state the step is taken from: an invariant that needs something of
its environment asks for it there and nowhere else (`run_invariant`). -/
namespace Lib

structure Machine (S A : Type*) where
  step : S → A → Option S

namespace Machine
variable {S A : Type*} (m : Machine S A)

/-- The state after a list of actions, if each of them can happen in turn. -/
def run (s : S) : List A → Option S
  | [] => some s
  | a :: rest => (m.step s a).bind fun s' => run s' rest

/-- Every step of the run satisfies the rule in the state it is taken from. -/
def Obeys (Rule : S → A → Prop) (s : S) : List A → Prop
  | [] => True
  | a :: rest => Rule s a ∧ ∀ s', m.step s a = some s' → Obeys Rule s' rest

instance decidableObeys {Rule : S → A → Prop} [∀ s a, Decidable (Rule s a)] :
    ∀ (s : S) (actions : List A), Decidable (m.Obeys Rule s actions)
  | _, [] => isTrue trivial
  | s, a :: rest =>
    match h : m.step s a with
    | none => decidable_of_iff (Rule s a) (by simp [Obeys, h])
    | some s' =>
      have : Decidable (m.Obeys Rule s' rest) := decidableObeys s' rest
      decidable_of_iff (Rule s a ∧ m.Obeys Rule s' rest) (by simp [Obeys, h])

variable {m}

theorem run_cons {s s' : S} {a : A} {rest : List A} (h : m.run s (a :: rest) = some s') :
    ∃ t, m.step s a = some t ∧ m.run t rest = some s' := by
  simpa [run, Option.bind_eq_some_iff] using h

/-- Where every action can happen, every list of them is a run. -/
theorem exists_run (h : ∀ s a, ∃ s', m.step s a = some s') (s : S) (actions : List A) : ∃ s', m.run s actions = some s' := by
  induction actions generalizing s with
  | nil => exact ⟨s, rfl⟩
  | cons a rest ih =>
    obtain ⟨t, ht⟩ := h s a
    obtain ⟨u, hu⟩ := ih t
    exact ⟨u, by rw [run, ht, Option.bind_some, hu]⟩

/-- **The invariant rule**: what the start satisfies and every step that obeys the
rule preserves holds wherever a run that obeys the rule ends. -/
theorem run_invariant {R : S → A → Prop} {I : S → Prop}
    (hstep : ∀ s a s', I s → R s a → m.step s a = some s' → I s')
    {s s' : S} {actions : List A} (hs : I s) (ho : m.Obeys R s actions)
    (hr : m.run s actions = some s') : I s' := by
  induction actions generalizing s with
  | nil =>
    cases hr
    exact hs
  | cons a rest ih =>
    obtain ⟨t, ht, hrest⟩ := run_cons hr
    exact ih (hstep s a t hs ho.1 ht) (ho.2 t ht) hrest

theorem Obeys.mono {Rule Rule' : S → A → Prop} (h : ∀ s a, Rule s a → Rule' s a) {s : S} {actions : List A}
    (ho : m.Obeys Rule s actions) : m.Obeys Rule' s actions := by
  induction actions generalizing s with
  | nil => trivial
  | cons a rest ih => exact ⟨h s a ho.1, fun s' hs' => ih (ho.2 s' hs')⟩

theorem Obeys.and {Rule Rule' : S → A → Prop} {s : S} {actions : List A} (h : m.Obeys Rule s actions)
    (h' : m.Obeys Rule' s actions) : m.Obeys (fun s a => Rule s a ∧ Rule' s a) s actions := by
  induction actions generalizing s with
  | nil => trivial
  | cons a rest ih => exact ⟨⟨h.1, h'.1⟩, fun s' hs' => ih (h.2 s' hs') (h'.2 s' hs')⟩

theorem obeys_trivial (s : S) (actions : List A) : m.Obeys (fun _ _ => True) s actions := by
  induction actions generalizing s with
  | nil => trivial
  | cons a rest ih => exact ⟨trivial, fun s' _ => ih s'⟩

/-- A rule on actions alone. -/
theorem obeys_of_forall {Rule : A → Prop} (s : S) {actions : List A} (h : ∀ a ∈ actions, Rule a) :
    m.Obeys (fun _ a => Rule a) s actions := by
  induction actions generalizing s with
  | nil => trivial
  | cons a rest ih =>
    exact ⟨h a (List.mem_cons_self ..), fun s' _ => ih s' fun b hb => h b (List.mem_cons_of_mem _ hb)⟩

/-- The same for an invariant that asks nothing of the steps. -/
theorem run_invariant_of_step {I : S → Prop}
    (hstep : ∀ s a s', I s → m.step s a = some s' → I s')
    {s s' : S} {actions : List A} (hs : I s) (hr : m.run s actions = some s') : I s' :=
  run_invariant (fun s a s' hi _ => hstep s a s' hi) hs (obeys_trivial s actions) hr

theorem run_append (s : S) (l l' : List A) : m.run s (l ++ l') = (m.run s l).bind fun t => m.run t l' := by
  induction l generalizing s with
  | nil => rfl
  | cons a rest ih =>
    simp only [List.cons_append, run, Option.bind_assoc]
    congr 1
    funext t
    exact ih t

/-- **The history rule**: what holds of the start and no action, and is carried on by each
further action, holds of every run and the state it ends in. -/
theorem run_history {s₀ : S} {I : List A → S → Prop} (hstart : I [] s₀)
    (hstep : ∀ actions s a s', m.run s₀ actions = some s → I actions s → m.step s a = some s' →
      I (actions ++ [a]) s')
    {actions : List A} {s : S} (hr : m.run s₀ actions = some s) : I actions s := by
  induction actions using List.reverseRecOn generalizing s with
  | nil =>
    cases hr
    exact hstart
  | append_singleton actions a ih =>
    rw [run_append] at hr
    obtain ⟨t, ht, hlast⟩ := Option.bind_eq_some_iff.mp hr
    obtain ⟨u, hu, hend⟩ := run_cons hlast
    cases hend
    exact hstep actions t a _ ht (ih ht) hu

/-- What the steps of a run report, in order. -/
def log {B : Type*} (m : Machine S A) (report : S → A → List B) (s : S) : List A → List B
  | [] => []
  | a :: rest =>
    report s a ++ match m.step s a with
      | some t => m.log report t rest
      | none => []

theorem log_cons {B : Type*} {report : S → A → List B} {s t : S} {a : A} {rest : List A} (h : m.step s a = some t) :
    m.log report s (a :: rest) = report s a ++ m.log report t rest := by
  rw [log, h]

/-- **The logging rule**: what holds of a state and the reports so far, and is carried on
by each step that keeps to the rule, holds of the run and its whole log. -/
theorem run_log {B : Type*} {R : S → A → Prop} {report : S → A → List B} {I : List B → S → Prop}
    (hstep : ∀ before s a s', I before s → R s a → m.step s a = some s' → I (before ++ report s a) s')
    {before : List B} {s s' : S} {actions : List A} (hs : I before s) (ho : m.Obeys R s actions)
    (hr : m.run s actions = some s') : I (before ++ m.log report s actions) s' := by
  induction actions generalizing before s with
  | nil =>
    cases hr
    rw [log, List.append_nil]
    exact hs
  | cons a rest ih =>
    obtain ⟨t, ht, hrest⟩ := run_cons hr
    rw [log_cons ht, ← List.append_assoc]
    exact ih (hstep before s a t hs ho.1 ht) (ho.2 t ht) hrest

/-- A state that the run passes after its first action. -/
def Visits (m : Machine S A) (s : S) (actions : List A) (t : S) : Prop :=
  ∃ passed, passed ≠ [] ∧ passed <+: actions ∧ m.run s passed = some t

theorem Visits.append {s t : S} {actions more : List A} (h : m.Visits s actions t) : m.Visits s (actions ++ more) t := by
  obtain ⟨passed, hne, hprefix, hrun⟩ := h
  exact ⟨passed, hne, hprefix.trans (List.prefix_append _ _), hrun⟩

/-- The state after one action more, or one passed before. -/
theorem visits_concat {s t : S} {actions : List A} {a : A} :
    m.Visits s (actions ++ [a]) t ↔ m.Visits s actions t ∨ m.run s (actions ++ [a]) = some t := by
  constructor
  · rintro ⟨passed, hne, hprefix, hrun⟩
    rw [List.prefix_concat_iff] at hprefix
    obtain rfl | hprefix := hprefix
    · exact .inr hrun
    · exact .inl ⟨passed, hne, hprefix, hrun⟩
  · rintro (h | hrun)
    · exact h.append
    · exact ⟨actions ++ [a], by simp, List.prefix_rfl, hrun⟩

/-- **The counting rule**: if every step of one kind costs something, and only steps of
another kind give something back, the first kind occurs only so often. -/
theorem run_count {R : S → A → Prop} {I : S → Prop} (cost : S → Nat) (spends pays : A → Bool)
    (hinv : ∀ s a s', I s → R s a → m.step s a = some s' → I s')
    (hcost : ∀ s a s', I s → R s a → m.step s a = some s' →
      cost s' + (if spends a then 1 else 0) ≤ cost s + (if pays a then 1 else 0))
    {s s' : S} {actions : List A} (hs : I s) (ho : m.Obeys R s actions) (hr : m.run s actions = some s') :
    actions.countP spends + cost s' ≤ cost s + actions.countP pays := by
  induction actions generalizing s with
  | nil =>
    cases hr
    simp
  | cons a rest ih =>
    obtain ⟨t, ht, hrest⟩ := run_cons hr
    have hstep := hcost s a t hs ho.1 ht
    have htail := ih (hinv s a t hs ho.1 ht) (ho.2 t ht) hrest
    simp only [List.countP_cons]
    omega

end Machine
end Lib
