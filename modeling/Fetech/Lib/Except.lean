import Mathlib.Data.List.Basic

/-! Computations that may raise, and taking apart those that succeeded. -/
namespace Lib.Except
variable {ε α β : Type}

/-- A check that raises when it fails. -/
def require (ok : Bool) (err : ε) : Except ε Unit := if ok then .ok () else .error err

/-- A value that may be missing. -/
def ofOption (err : ε) : Option α → Except ε α
  | some a => .ok a
  | none => .error err

@[simp] theorem bind_eq_ok {x : Except ε α} {f : α → Except ε β} {b : β} :
    (x >>= f) = .ok b ↔ ∃ a, x = .ok a ∧ f a = .ok b := by
  cases x with
  | error err => simp [bind, Except.bind]
  | ok a => simp [bind, Except.bind]

@[simp] theorem require_eq_ok {ok : Bool} {err : ε} {u : Unit} : require ok err = .ok u ↔ ok = true := by
  cases ok <;> simp [require]

@[simp] theorem ofOption_eq_ok {o : Option α} {err : ε} {a : α} : ofOption err o = .ok a ↔ o = some a := by
  cases o <;> simp [ofOption]

theorem mapError_eq_ok {ε' : Type} {x : Except ε α} {f : ε → ε'} {a : α} : x.mapError f = .ok a ↔ x = .ok a := by
  cases x <;> simp [Except.mapError]

theorem error_ne_ok {err : ε} {a : α} : (.error err : Except ε α) ≠ .ok a := nofun

theorem toOption_eq_some {x : Except ε α} {a : α} : x.toOption = some a ↔ x = .ok a := by
  cases x with
  | error err => simp [Except.toOption]
  | ok b => simp [Except.toOption]

theorem toOption_ofOption {o : Option α} {err : ε} : (ofOption err o).toOption = o := by
  cases o with
  | none => rfl
  | some a => rfl

theorem toOption_bind {x : Except ε α} {f : α → Except ε β} :
    (x >>= f).toOption = x.toOption.bind fun a => (f a).toOption := by
  cases x with
  | error err => rfl
  | ok a => rfl

/-- A loop of which no turn raises. -/
theorem mapM_eq_ok {f : α → Except ε β} {l : List α} (h : ∀ a ∈ l, ∃ b, f a = .ok b) :
    ∃ bs, l.mapM f = .ok bs ∧ ∀ b, b ∈ bs ↔ ∃ a ∈ l, f a = .ok b := by
  induction l with
  | nil => exact ⟨[], rfl, by simp⟩
  | cons a l ih =>
    obtain ⟨b, hb⟩ := h a (List.mem_cons_self ..)
    obtain ⟨bs, hbs, hmem⟩ := ih fun x hx => h x (List.mem_cons_of_mem a hx)
    refine ⟨b :: bs, ?_, fun c => ?_⟩
    · rw [List.mapM_cons, hb, hbs]
      rfl
    · rw [List.mem_cons, hmem, eq_comm (a := c)]
      simp [hb]

/-- A loop over options ends if every turn of it does. -/
theorem mapM_isSome_iff {f : α → Option β} {l : List α} : (l.mapM f).isSome = true ↔ ∀ a ∈ l, (f a).isSome = true := by
  induction l with
  | nil => simp
  | cons a l ih =>
    rw [List.forall_mem_cons, ← ih, List.mapM_cons]
    cases f a with
    | none => simp
    | some b =>
      cases l.mapM f with
      | none => simp
      | some bs => simp

/-- What comes out of a loop comes out of one of its turns. -/
theorem mem_mapM {f : α → Option β} {l : List α} {bs : List β} (h : l.mapM f = some bs) (b : β) :
    b ∈ bs ↔ ∃ a ∈ l, f a = some b := by
  induction l generalizing bs with
  | nil =>
    cases h
    simp
  | cons a l ih =>
    rw [List.mapM_cons] at h
    simp only [Option.bind_eq_bind, Option.bind_eq_some_iff, Option.pure_def, Option.some.injEq] at h
    obtain ⟨b', hb', bs', hbs', rfl⟩ := h
    rw [List.mem_cons, ih hbs', eq_comm (a := b)]
    simp [hb']

/-- A loop of which every turn returns. -/
theorem mapM_of_ok {f : α → Except ε β} {g : α → β} {l : List α} (h : ∀ a ∈ l, f a = .ok (g a)) :
    l.mapM f = .ok (l.map g) := by
  induction l with
  | nil => rfl
  | cons a l ih =>
    rw [List.forall_mem_cons] at h
    rw [List.mapM_cons, h.1, ih h.2]
    rfl

/-- What comes out of a loop that ended, turn by turn. -/
theorem forall₂_mapM {f : α → Except ε β} {l : List α} {bs : List β} (h : l.mapM f = .ok bs) :
    List.Forall₂ (fun a b => f a = .ok b) l bs := by
  induction l generalizing bs with
  | nil =>
    cases h
    exact .nil
  | cons a l ih =>
    simp only [List.mapM_cons, bind_eq_ok] at h
    obtain ⟨b, hb, bs', hbs', heq⟩ := h
    cases heq
    exact .cons hb (ih hbs')

/-- A loop ends if every turn of it does, and only then. -/
theorem exists_mapM_iff {f : α → Except ε β} {l : List α} : (∃ bs, l.mapM f = .ok bs) ↔ ∀ a ∈ l, ∃ b, f a = .ok b := by
  constructor
  · intro ⟨bs, h⟩
    induction l generalizing bs with
    | nil => exact nofun
    | cons a l ih =>
      simp only [List.mapM_cons, bind_eq_ok] at h
      obtain ⟨b, hb, bs', hbs', -⟩ := h
      exact List.forall_mem_cons.mpr ⟨⟨b, hb⟩, ih bs' hbs'⟩
  · intro h
    obtain ⟨bs, hbs, -⟩ := mapM_eq_ok h
    exact ⟨bs, hbs⟩

theorem mem_mapM_iff {f : α → Except ε β} {l : List α} {bs : List β} (h : l.mapM f = .ok bs) (b : β) :
    b ∈ bs ↔ ∃ a ∈ l, f a = .ok b := by
  obtain ⟨bs', hbs', hmem⟩ := mapM_eq_ok (exists_mapM_iff.mp ⟨bs, h⟩)
  cases h.symm.trans hbs'
  exact hmem b

/-- A loop of checks ends if each of them passes. -/
theorem forM_eq_ok {f : α → Except ε Unit} {l : List α} {u : Unit} : l.forM f = .ok u ↔ ∀ a ∈ l, f a = .ok () := by
  induction l with
  | nil => simp [pure, Except.pure]
  | cons a l ih =>
    change (f a >>= fun _ => l.forM f) = .ok u ↔ _
    rw [bind_eq_ok, List.forall_mem_cons, ← ih]
    constructor
    · intro ⟨_, ha, hl⟩
      exact ⟨ha, hl⟩
    · intro ⟨ha, hl⟩
      exact ⟨(), ha, hl⟩

/-! ### Rules of postconditions -/

/-- A computation returns with `Q` or raises with `E`. -/
def Meets (x : Except ε α) (Q : α → Prop) (E : ε → Prop) : Prop :=
  match x with
  | .ok a => Q a
  | .error err => E err

section
variable {Q Q' : α → Prop} {E E' : ε → Prop}

theorem meets_iff {x : Except ε α} : Meets x Q E ↔ (∀ a, x = .ok a → Q a) ∧ ∀ err, x = .error err → E err := by
  cases x <;> simp [Meets]

theorem meets_mono {x : Except ε α} (h : Meets x Q E) (hQ : ∀ a, Q a → Q' a) (hE : ∀ err, E err → E' err) : Meets x Q' E' := by
  cases x with
  | ok a => exact hQ a h
  | error err => exact hE err h

theorem meets_of_ok {x : Except ε α} (h : Meets x Q E) {a : α} (hx : x = .ok a) : Q a := (meets_iff.mp h).1 a hx

@[simp] theorem meets_ok (a : α) : Meets (.ok a : Except ε α) Q E ↔ Q a := Iff.rfl

@[simp] theorem meets_pure (a : α) : Meets (pure a : Except ε α) Q E ↔ Q a := Iff.rfl

@[simp] theorem meets_error (err : ε) : Meets (.error err : Except ε α) Q E ↔ E err := Iff.rfl

@[simp] theorem meets_bind {x : Except ε β} {f : β → Except ε α} :
    Meets (x >>= f) Q E ↔ Meets x (fun b => Meets (f b) Q E) E := by
  cases x <;> rfl

@[simp] theorem meets_require {ok : Bool} {err : ε} {Q : Unit → Prop} :
    Meets (require ok err) Q E ↔ (ok = true → Q ()) ∧ (ok = false → E err) := by
  cases ok <;> simp [require]

@[simp] theorem meets_ofOption {o : Option α} {err : ε} :
    Meets (ofOption err o) Q E ↔ (∀ a, o = some a → Q a) ∧ (o = none → E err) := by
  cases o <;> simp [ofOption]

@[simp] theorem meets_ite (p : Prop) [Decidable p] (x y : Except ε α) :
    Meets (if p then x else y) Q E ↔ (p → Meets x Q E) ∧ (¬ p → Meets y Q E) := by
  by_cases h : p <;> simp [h]

/-- A loop over a list, of which every turn meets the same. -/
theorem meets_mapM {f : β → Except ε α} {l : List β} (h : ∀ b ∈ l, Meets (f b) Q E) :
    Meets (l.mapM f) (fun as => ∀ a ∈ as, Q a) E := by
  induction l with
  | nil => exact nofun
  | cons b l ih =>
    rw [List.forall_mem_cons] at h
    rw [List.mapM_cons, meets_bind]
    refine meets_mono h.1 (fun a ha => ?_) fun _ => id
    rw [meets_bind]
    refine meets_mono (ih h.2) (fun as has => ?_) fun _ => id
    exact List.forall_mem_cons.mpr ⟨ha, has⟩

end

/-! ### Loops with a state -/

/-- What the start satisfies and every turn keeps holds when the loop ends, with the turns counted. -/
theorem foldlM_invariant {σ : Type} {f : σ → α → Except ε σ} {I : Nat → σ → Prop} {l : List α}
    (hstep : ∀ n s t, ∀ a ∈ l, I n s → f s a = .ok t → I (n + 1) t) {n : Nat} {s t : σ} (hs : I n s)
    (h : l.foldlM f s = .ok t) : I (n + l.length) t := by
  induction l generalizing n s with
  | nil =>
    cases h
    exact hs
  | cons a l ih =>
    rw [List.foldlM_cons, bind_eq_ok] at h
    obtain ⟨u, hu, hrest⟩ := h
    have htail := ih (fun n s t b hb => hstep n s t b (List.mem_cons_of_mem a hb))
      (hstep n s u a List.mem_cons_self hs hu) hrest
    rwa [List.length_cons, Nat.add_comm l.length, ← Nat.add_assoc]

/-- The same, with the list that has been gone through. -/
theorem foldlM_history {σ : Type} {f : σ → α → Except ε σ} {I : List α → σ → Prop} {before l : List α}
    (hstep : ∀ before a s t, I before s → f s a = .ok t → I (before ++ [a]) t) {s t : σ} (hs : I before s)
    (h : l.foldlM f s = .ok t) : I (before ++ l) t := by
  induction l generalizing before s with
  | nil =>
    cases h
    rwa [List.append_nil]
  | cons a l ih =>
    rw [List.foldlM_cons, bind_eq_ok] at h
    obtain ⟨u, hu, hrest⟩ := h
    have htail := ih (hstep before a s u hs hu) hrest
    rwa [List.append_assoc, List.singleton_append] at htail

end Lib.Except
