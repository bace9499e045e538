import Mathlib.Data.Nat.Basic
import Fetech.Lib.Program

/-! Loops of programs: over a list, and as long as their body says so.

`loop body n` takes at most `n` turns; `none` says that they were not enough. A measure that
falls with each turn after which the loop goes on bounds the turns (`loop_ends`), and what
holds before each of them holds when it ends (`loop_invariant`). `iterate` takes as many turns
as such a measure says and has one rule for both (`meets_iterate`). -/
namespace Lib.Program
variable {σ ε α : Type}

/-! ### Over a list -/

def forEach (body : α → Program σ ε Unit) : List α → Program σ ε Unit
  | [] => pure ()
  | a :: rest => do
    body a
    forEach body rest

/-- What holds before each item, with the items still to come, holds at the end. -/
theorem meets_forEach {body : α → Program σ ε Unit} {I : List α → σ → Prop} {E : ε → σ → Prop} {xs : List α} {s : σ}
    (hs : I xs s) (hbody : ∀ a rest s, I (a :: rest) s → (body a).Meets s (fun _ t => I rest t) E) :
    (forEach body xs).Meets s (fun _ t => I [] t) E := by
  induction xs generalizing s with
  | nil => exact hs
  | cons a rest ih =>
    rw [forEach, meets_bind]
    exact (hbody a rest s hs).mono (fun _ t ht => ih ht) fun _ _ h => h

theorem Respects.forEach {R : σ → σ → Prop} [IsPreorder σ R] {body : α → Program σ ε Unit}
    (h : ∀ a, Respects R (body a)) (xs : List α) : Respects R (Program.forEach body xs) := by
  induction xs with
  | nil => exact .pure ()
  | cons a rest ih => exact .bind (h a) fun _ => ih

/-! ### As long as the body says so -/

def loop (body : Program σ ε Bool) : Nat → σ → Option (Except ε Unit × σ)
  | 0, _ => none
  | n + 1, s =>
    match body s with
    | (.ok true, t) => loop body n t
    | (.ok false, t) => some (.ok (), t)
    | (.error err, t) => some (.error err, t)

/-- How a loop ends, if its turns are enough. -/
def Ends (outcome : Option (Except ε Unit × σ)) (Q : σ → Prop) (E : ε → σ → Prop) : Prop :=
  match outcome with
  | none => True
  | some (.ok (), t) => Q t
  | some (.error err, t) => E err t

variable {body : Program σ ε Bool} {I Q : σ → Prop} {E : ε → σ → Prop}

/-- What the start satisfies and the turns keep holds before each of them. -/
theorem loop_invariant (hbody : ∀ s, I s → body.Meets s (fun more t => if more then I t else Q t) E) (n : Nat) {s : σ}
    (hs : I s) : Ends (loop body n s) Q E := by
  induction n generalizing s with
  | zero => trivial
  | succ n ih =>
    have hturn := hbody s hs
    unfold loop
    unfold Meets at hturn
    cases hb : body s with
    | mk r t =>
      rw [hb] at hturn
      cases r with
      | error err => exact hturn
      | ok more =>
        cases more with
        | false => exact hturn
        | true => exact ih hturn

/-- **A loop ends** if something falls with each turn after which it goes on; how many turns are
allowed beyond that makes no difference. -/
theorem loop_ends (fuel : σ → Nat)
    (hbody : ∀ s, I s → body.Meets s (fun more t => more = true → I t ∧ fuel t < fuel s) fun _ _ => True)
    {s : σ} (hs : I s) : ∃ r, ∀ n, fuel s < n → loop body n s = some r := by
  induction hm : fuel s using Nat.strong_induction_on generalizing s with
  | _ m ih =>
    have hturn := hbody s hs
    unfold Meets at hturn
    cases hb : body s with
    | mk r t =>
      rw [hb] at hturn
      cases r with
      | error err =>
        refine ⟨(.error err, t), fun n hn => ?_⟩
        obtain ⟨k, rfl⟩ := Nat.exists_eq_add_of_lt hn
        simp only [loop, hb]
      | ok more =>
        cases more with
        | false =>
          refine ⟨(.ok (), t), fun n hn => ?_⟩
          obtain ⟨k, rfl⟩ := Nat.exists_eq_add_of_lt hn
          simp only [loop, hb]
        | true =>
          obtain ⟨hit, hlt⟩ := hturn rfl
          obtain ⟨r, hr⟩ := ih (fuel t) (hm ▸ hlt) hit rfl
          refine ⟨r, fun n hn => ?_⟩
          obtain ⟨k, rfl⟩ := Nat.exists_eq_add_of_lt hn
          simp only [loop, hb]
          exact hr _ (by omega)

/-- Two outcomes are the same, or an error each. -/
def SameEnd {β : Type} (x y : Except ε β × σ) : Prop :=
  x = y ∨ (∃ err t, x = (.error err, t)) ∧ ∃ err t, y = (.error err, t)

theorem SameEnd.bind {β γ : Type} {x y : Program σ ε β} {s : σ} (h : SameEnd (x s) (y s)) (f : β → Program σ ε γ) :
    SameEnd ((x >>= f) s) ((y >>= f) s) := by
  obtain heq | ⟨⟨err, t, herr⟩, err', t', herr'⟩ := h
  · refine .inl ?_
    simp only [Bind.bind, heq]
  · exact .inr ⟨⟨err, t, bind_of_error herr⟩, err', t', bind_of_error herr'⟩

/-- Loops whose turns end alike end alike. -/
theorem loop_congr {body' : Program σ ε Bool} (hsame : ∀ s, SameEnd (body s) (body' s)) (n : Nat) (s : σ) :
    loop body n s = loop body' n s ∨
      ∃ x y, loop body n s = some x ∧ loop body' n s = some y ∧ SameEnd x y := by
  induction n generalizing s with
  | zero => exact .inl rfl
  | succ n ih =>
    obtain heq | ⟨⟨err, t, herr⟩, err', t', herr'⟩ := hsame s
    · unfold loop
      rw [← heq]
      split
      · exact ih _
      · exact .inl rfl
      · exact .inl rfl
    · refine .inr ⟨(.error err, t), (.error err', t'), ?_, ?_, .inr ⟨⟨err, t, rfl⟩, err', t', rfl⟩⟩
      · simp only [loop, herr]
      · simp only [loop, herr']

/-! ### Loops with enough turns -/

/-- The state that a program leaves, if it returns. -/
def exec (x : Program σ ε Unit) (s : σ) : Except ε σ :=
  match x s with
  | (.ok _, t) => .ok t
  | (.error err, _) => .error err

/-- A loop with a turn more than `left` counts, of which `endless` says that they were not enough. -/
def iterate (left : σ → Nat) (endless : ε) (body : Program σ ε Bool) : Program σ ε Unit := fun s =>
  (loop body (left s + 1) s).getD (.error endless, s)

/-- Something falls with each turn after which a loop goes on. -/
def Falls (left : σ → Nat) (body : Program σ ε Bool) : Prop := ∀ s t, body s = (.ok true, t) → left t < left s

theorem meets_exec {x : Program σ ε Unit} {s : σ} {Q : σ → Prop} {E : ε → Prop} :
    Except.Meets (exec x s) Q E ↔ x.Meets s (fun _ => Q) fun err _ => E err := by
  unfold exec Except.Meets Meets
  cases x s with
  | mk r t => cases r <;> rfl

variable {left : σ → Nat} {endless : ε} {body : Program σ ε Bool} {I Q : σ → Prop} {E : ε → σ → Prop} {s t : σ}

theorem iterate_true (h : Falls left body) (hbody : body s = (.ok true, t)) :
    iterate left endless body s = iterate left endless body t := by
  have hlt := h s t hbody
  have hsome : ∃ r, ∀ n, left t < n → loop body n t = some r :=
    loop_ends (I := fun _ => True) left (fun s _ => by
      unfold Meets
      split
      · rename_i more t' hmore
        exact fun heq => ⟨trivial, h s t' (heq ▸ hmore)⟩
      · trivial) trivial
  obtain ⟨r, hr⟩ := hsome
  have hs : loop body (left s + 1) s = loop body (left s) t := by
    conv => lhs; unfold loop
    rw [hbody]
  rw [iterate, iterate, hs, hr _ hlt, hr _ (Nat.lt_succ_self _)]
  rfl

theorem iterate_false (hbody : body s = (.ok false, t)) : iterate left endless body s = (.ok (), t) := by
  unfold iterate loop
  rw [hbody]
  rfl

theorem iterate_error {err : ε} (hbody : body s = (.error err, t)) : iterate left endless body s = (.error err, t) := by
  unfold iterate loop
  rw [hbody]
  rfl

/-- **The rule for such loops**: what holds before each turn, and that something falls with it. -/
theorem meets_iterate (hs : I s)
    (hbody : ∀ s, I s → body.Meets s (fun more t => if more then I t ∧ left t < left s else Q t) E) :
    (iterate left endless body).Meets s (fun _ => Q) E := by
  have hsteps : ∀ s, I s → body.Meets s (fun more t => more = true → I t ∧ left t < left s) fun _ _ => True := fun s hs =>
    (hbody s hs).mono (fun more t h hmore => by simpa [hmore] using h) fun _ _ _ => trivial
  obtain ⟨r, hr⟩ := loop_ends left hsteps hs
  have hends := loop_invariant (fun s hs => (hbody s hs).mono (fun more t h => by
    cases more with
    | false => exact h
    | true => exact h.1) fun _ _ h => h) (left s + 1) hs
  rw [hr _ (Nat.lt_succ_self _)] at hends
  unfold Meets iterate
  rw [hr _ (Nat.lt_succ_self _)]
  obtain ⟨r, t⟩ := r
  cases r with
  | error err => exact hends
  | ok u => exact hends

end Lib.Program
