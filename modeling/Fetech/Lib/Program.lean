import Fetech.Lib.Except

/-! Programs over a state that may raise, and rules of pre- and postconditions for them.

What a program did before it raised stays done: an error comes with the state it left
behind. `Meets x s Q E` is the weakest precondition of `x` at `s`, for `Q` if it returns
and `E` if it raises. The rules are equivalences, so that `simp` runs a program
symbolically; a program that has its own rule is used through it (`Meets.mono`). -/
namespace Lib

def Program (σ ε α : Type) := σ → Except ε α × σ

namespace Program
variable {σ ε α β : Type}

instance : Monad (Program σ ε) where
  pure a s := (.ok a, s)
  bind x f s := match x s with
    | (.ok a, s') => f a s'
    | (.error err, s') => (.error err, s')

def get : Program σ ε σ := fun s => (.ok s, s)

def modify (f : σ → σ) : Program σ ε Unit := fun s => (.ok (), f s)

def raise (err : ε) : Program σ ε α := fun s => (.error err, s)

def ofExcept (x : Except ε α) : Program σ ε α := fun s => (x, s)

def ofOption (err : ε) (o : Option α) : Program σ ε α := ofExcept (Except.ofOption err o)

/-- Raise unless the condition holds. -/
def check (ok : Bool) (err : ε) : Program σ ε Unit := ofExcept (Except.require ok err)

/-- Go on with the handler where the program raises, in the state it left behind. -/
def rescue (x : Program σ ε α) (handler : ε → Program σ ε α) : Program σ ε α := fun s =>
  match x s with
  | (.ok a, s') => (.ok a, s')
  | (.error err, s') => handler err s'

/-- Finish however the program ends; an error in that replaces what it ended with. -/
def ensure (x : Program σ ε α) (finish : Program σ ε Unit) : Program σ ε α := fun s =>
  match x s with
  | (r, t) =>
    match finish t with
    | (.ok _, u) => (r, u)
    | (.error err, u) => (.error err, u)

/-- Run the program if the condition holds. -/
def when (p : Prop) [Decidable p] (x : Program σ ε Unit) : Program σ ε Unit := if p then x else pure ()

/-- From `s` the program returns with `Q` or raises with `E`. -/
def Meets (x : Program σ ε α) (s : σ) (Q : α → σ → Prop) (E : ε → σ → Prop) : Prop :=
  match x s with
  | (.ok a, s') => Q a s'
  | (.error err, s') => E err s'

variable {s : σ} {Q Q' : α → σ → Prop} {E E' : ε → σ → Prop}

theorem Meets.mono {x : Program σ ε α} (h : x.Meets s Q E) (hQ : ∀ a s', Q a s' → Q' a s')
    (hE : ∀ err s', E err s' → E' err s') : x.Meets s Q' E' := by
  unfold Meets at h ⊢
  split
  · rename_i a s' hx
    rw [hx] at h
    exact hQ a s' h
  · rename_i err s' hx
    rw [hx] at h
    exact hE err s' h

/-- What holds however the program ends holds of the state it leaves behind. -/
theorem Meets.state {x : Program σ ε α} {P : σ → Prop} (h : x.Meets s (fun _ => P) fun _ => P) : P (x s).2 := by
  unfold Meets at h
  split at h
  · rename_i hx
    rw [hx]
    exact h
  · rename_i hx
    rw [hx]
    exact h

@[simp] theorem meets_pure (a : α) : (pure a : Program σ ε α).Meets s Q E ↔ Q a s := Iff.rfl

@[simp] theorem meets_bind (x : Program σ ε β) (f : β → Program σ ε α) :
    (x >>= f).Meets s Q E ↔ x.Meets s (fun b s' => (f b).Meets s' Q E) E := by
  show Meets (fun s => match x s with
    | (.ok a, s') => f a s'
    | (.error err, s') => (.error err, s')) s Q E ↔ _
  unfold Meets
  cases hx : x s with
  | mk r s' => cases r <;> simp only [hx]

@[simp] theorem meets_get {Q : σ → σ → Prop} : (get : Program σ ε σ).Meets s Q E ↔ Q s s := Iff.rfl

@[simp] theorem meets_modify (f : σ → σ) {Q : Unit → σ → Prop} :
    (modify f : Program σ ε Unit).Meets s Q E ↔ Q () (f s) := Iff.rfl

@[simp] theorem meets_raise (err : ε) : (raise err : Program σ ε α).Meets s Q E ↔ E err s := Iff.rfl

@[simp] theorem meets_ofExcept (x : Except ε α) :
    (ofExcept x : Program σ ε α).Meets s Q E ↔ (∀ a, x = .ok a → Q a s) ∧ ∀ err, x = .error err → E err s := by
  cases x <;> simp [Meets, ofExcept]

@[simp] theorem meets_ofOption (err : ε) (o : Option α) :
    (ofOption err o : Program σ ε α).Meets s Q E ↔ (∀ a, o = some a → Q a s) ∧ (o = none → E err s) := by
  cases o <;> simp [ofOption, Except.ofOption]

@[simp] theorem meets_check (ok : Bool) (err : ε) {Q : Unit → σ → Prop} :
    (check ok err : Program σ ε Unit).Meets s Q E ↔ (ok = true → Q () s) ∧ (ok = false → E err s) := by
  cases ok with
  | false => simp [check, Except.require]
  | true => simp [Meets, check, ofExcept, Except.require]

theorem meets_ofExcept_ok (a : α) : (ofExcept (.ok a) : Program σ ε α).Meets s Q E ↔ Q a s := Iff.rfl

theorem meets_ofOption_some (err : ε) (a : α) : (ofOption err (some a) : Program σ ε α).Meets s Q E ↔ Q a s := Iff.rfl

theorem meets_check_true (err : ε) {Q : Unit → σ → Prop} : (check true err : Program σ ε Unit).Meets s Q E ↔ Q () s := Iff.rfl

@[simp] theorem meets_rescue (x : Program σ ε α) (handler : ε → Program σ ε α) :
    (rescue x handler).Meets s Q E ↔ x.Meets s Q fun err s' => (handler err).Meets s' Q E := by
  unfold rescue Meets
  cases hx : x s with
  | mk r s' => cases r <;> simp only [hx]

@[simp] theorem meets_ensure (x : Program σ ε α) (finish : Program σ ε Unit) :
    (ensure x finish).Meets s Q E ↔
      x.Meets s (fun a t => finish.Meets t (fun _ => Q a) E) fun err t => finish.Meets t (fun _ => E err) E := by
  unfold ensure Meets
  cases hx : x s with
  | mk r t =>
    cases hfinish : finish t with
    | mk r' u =>
      simp only [hx]
      cases r <;> cases r' <;> simp only [hfinish]

@[simp] theorem meets_ite (p : Prop) [Decidable p] (x y : Program σ ε α) :
    (if p then x else y).Meets s Q E ↔ (p → x.Meets s Q E) ∧ (¬ p → y.Meets s Q E) := by
  by_cases h : p <;> simp [h]

@[simp] theorem meets_when (p : Prop) [Decidable p] (x : Program σ ε Unit) {Q : Unit → σ → Prop} :
    (when p x).Meets s Q E ↔ (p → x.Meets s Q E) ∧ (¬ p → Q () s) := by
  simp [when]

theorem bind_of_ok {x : Program σ ε β} {f : β → Program σ ε α} {b : β} {t : σ} (h : x s = (.ok b, t)) :
    (x >>= f) s = f b t := by
  simp only [bind, h]

theorem bind_of_error {x : Program σ ε β} {f : β → Program σ ε α} {err : ε} {t : σ} (h : x s = (.error err, t)) :
    (x >>= f) s = (.error err, t) := by
  simp only [bind, h]

theorem ok_of_bind {x : Program σ ε β} {f : β → Program σ ε α} {a : α} (h : ((x >>= f) s).1 = .ok a) :
    ∃ b t, x s = (.ok b, t) := by
  cases hx : x s with
  | mk r t =>
    cases r with
    | error err =>
      rw [bind_of_error hx] at h
      cases h
    | ok b => exact ⟨b, t, rfl⟩

theorem bind_assoc {γ : Type} (x : Program σ ε β) (f : β → Program σ ε γ) (g : γ → Program σ ε α) :
    x >>= f >>= g = x >>= fun b => f b >>= g := by
  funext s
  show (match (match x s with
      | (.ok b, t) => f b t
      | (.error err, t) => (.error err, t)) with
    | (.ok c, t) => g c t
    | (.error err, t) => (.error err, t)) = match x s with
      | (.ok b, t) => (f b >>= g) t
      | (.error err, t) => (.error err, t)
  cases hx : x s with
  | mk r t =>
    cases r with
    | error err => rfl
    | ok b => rfl

/-- Two things hold of how a program ends if each does. -/
theorem Meets.and {x : Program σ ε α} (h : x.Meets s Q E) (h' : x.Meets s Q' E') :
    x.Meets s (fun a t => Q a t ∧ Q' a t) fun err t => E err t ∧ E' err t := by
  unfold Meets at h h' ⊢
  cases hx : x s with
  | mk r t => cases r <;> simp_all only [and_self]

/-! ### The errors of a program -/

/-- From `s` the program raises nothing but errors with `P`. -/
def RaisesOnly (x : Program σ ε α) (s : σ) (P : ε → Prop) : Prop := x.Meets s (fun _ _ => True) fun err _ => P err

/-- If the program returns from `s`, it does so with `Q`. -/
def After (x : Program σ ε α) (s : σ) (Q : α → σ → Prop) : Prop := x.Meets s Q fun _ _ => True

variable {P : ε → Prop}

theorem after_iff (x : Program σ ε α) : x.After s Q ↔ ∀ a t, x s = (.ok a, t) → Q a t := by
  unfold After Meets
  cases hx : x s with
  | mk r t =>
    cases r with
    | error err => simp
    | ok a =>
      refine ⟨?_, fun h => h a t rfl⟩
      rintro h _ _ ⟨⟩
      exact h

theorem After.congr {x : Program σ ε α} (h : ∀ a t, Q a t ↔ Q' a t) : x.After s Q ↔ x.After s Q' := by
  simp only [after_iff, h]

/-- Of states with `I` only, where the program returns with `I`. -/
theorem After.congr_of {x : Program σ ε α} {I : α → σ → Prop} (hI : x.Meets s I E) (h : ∀ a t, I a t → (Q a t ↔ Q' a t)) :
    x.After s Q ↔ x.After s Q' := by
  simp only [after_iff]
  refine forall₃_congr fun a t hx => h a t ?_
  simpa [Meets, hx] using hI

/-- A rule with one condition on errors and one on the states they leave behind, where the
second always holds. -/
theorem meets_iff_raisesOnly {x : Program σ ε α} {R : σ → Prop} {I : α → σ → Prop} (hR : x.Meets s I fun _ => R) :
    (x.Meets s Q fun err t => P err ∧ R t) ↔ x.RaisesOnly s P ∧ x.After s Q := by
  unfold RaisesOnly After
  unfold Meets at hR ⊢
  cases hx : x s with
  | mk r t => cases r <;> simp_all

theorem after_true (x : Program σ ε α) : x.After s fun _ _ => True := (after_iff x).mpr fun _ _ _ => trivial

theorem raisesOnly_get_bind (f : σ → Program σ ε α) : (get >>= f).RaisesOnly s P ↔ (f s).RaisesOnly s P := Iff.rfl

/-- Two steps raise only such errors if the first does and, where it returns, the second. -/
theorem raisesOnly_bind (x : Program σ ε β) (f : β → Program σ ε α) :
    (x >>= f).RaisesOnly s P ↔ x.RaisesOnly s P ∧ x.After s fun b t => (f b).RaisesOnly t P := by
  unfold RaisesOnly After
  rw [meets_bind]
  unfold Meets
  cases hx : x s with
  | mk r t => cases r <;> simp only [true_and, and_true]

/-! ### Programs that move along a preorder -/

/-- However the program ends, its last state is related to its first. -/
structure Respects (R : σ → σ → Prop) (x : Program σ ε α) : Prop where
  meets : ∀ s, x.Meets s (fun _ => R s) fun _ => R s

namespace Respects
variable {R : σ → σ → Prop}

theorem modify {f : σ → σ} (h : ∀ s, R s (f s)) : Respects R (modify f : Program σ ε Unit) := ⟨fun s => h s⟩

theorem mono {R' : σ → σ → Prop} {x : Program σ ε α} (hx : Respects R x) (h : ∀ s t, R s t → R' s t) : Respects R' x :=
  ⟨fun s => (hx.meets s).mono (fun _ t => h s t) fun _ t => h s t⟩

theorem ite (p : Prop) [Decidable p] {x y : Program σ ε α} (hx : Respects R x) (hy : Respects R y) :
    Respects R (if p then x else y) := by
  split
  · exact hx
  · exact hy

variable [IsPreorder σ R]

theorem pure (a : α) : Respects R (pure a : Program σ ε α) := ⟨fun s => refl_of R s⟩

theorem raise (err : ε) : Respects R (raise err : Program σ ε α) := ⟨fun s => refl_of R s⟩

theorem get : Respects R (get : Program σ ε σ) := ⟨fun s => refl_of R s⟩

theorem ofExcept (x : Except ε α) : Respects R (ofExcept x : Program σ ε α) := by
  refine ⟨fun s => ?_⟩
  rw [meets_ofExcept]
  exact ⟨fun _ _ => refl_of R s, fun _ _ => refl_of R s⟩

theorem ofOption (err : ε) (o : Option α) : Respects R (ofOption err o : Program σ ε α) := ofExcept _

theorem check (ok : Bool) (err : ε) : Respects R (check ok err : Program σ ε Unit) := ofExcept _

theorem bind {x : Program σ ε β} {f : β → Program σ ε α} (hx : Respects R x) (hf : ∀ b, Respects R (f b)) :
    Respects R (x >>= f) := by
  refine ⟨fun s => ?_⟩
  rw [meets_bind]
  refine (hx.meets s).mono ?_ fun _ _ h => h
  intro b t hst
  exact ((hf b).meets t).mono (fun _ _ htu => trans_of R hst htu) fun _ _ htu => trans_of R hst htu

theorem when (p : Prop) [Decidable p] {x : Program σ ε Unit} (hx : Respects R x) : Respects R (when p x) :=
  ite p hx (pure ())

end Respects

end Program
end Lib
