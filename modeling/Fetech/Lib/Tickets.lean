import Mathlib.Data.List.Nodup
import Mathlib.Data.Set.Insert
import Mathlib.Logic.Function.Basic

/-! Tickets that are good for one use.

A ticket is offered until it is taken, and no ticket is put back. Who takes one may hold it, and a
holder uses its ticket or drops it. So a ticket is taken once, held by one holder at a time and used
once at the most (`Proper`), whoever takes steps in whatever order. -/
namespace Lib

structure Tickets (ι τ : Type*) where
  offered : Set τ
  held : ι → Option τ
  taken : List τ
  used : List τ

namespace Tickets
variable {ι τ : Type*}

/-- Every ticket is where one ticket can be. -/
structure Proper (t : Tickets ι τ) : Prop where
  gone : ∀ x ∈ t.taken, x ∉ t.offered
  once : t.taken.Nodup
  holder : ∀ i x, t.held i = some x → x ∈ t.taken
  apart : ∀ i j x, t.held i = some x → t.held j = some x → i = j
  spent : ∀ x ∈ t.used, x ∈ t.taken ∧ ∀ i, t.held i ≠ some x
  single : t.used.Nodup

/-- All tickets are offered. -/
def fresh (offered : Set τ) : Tickets ι τ := ⟨offered, fun _ => none, [], []⟩

theorem proper_fresh (offered : Set τ) : (fresh offered : Tickets ι τ).Proper := by
  have hnone : ∀ i x, (fresh offered : Tickets ι τ).held i ≠ some x := fun _ x h => Option.some_ne_none x h.symm
  exact ⟨List.forall_mem_nil _, .nil, fun i x h => absurd h (hnone i x), fun i _ x h _ => absurd h (hnone i x),
    List.forall_mem_nil _, .nil⟩

/-- With one ticket less on offer. -/
theorem Proper.taken_snoc {t : Tickets ι τ} (h : t.Proper) {x : τ} (hoffered : x ∈ t.offered) :
    (∀ y ∈ t.taken ++ [x], y ∉ t.offered \ {x}) ∧ (t.taken ++ [x]).Nodup := by
  constructor
  · intro y hy hleft
    rcases List.mem_append.mp hy with hold | hnew
    · exact h.gone y hold hleft.1
    · exact hleft.2 (List.mem_singleton.mp hnew)
  · apply h.once.append (List.nodup_singleton x)
    intro y hy hx
    rw [List.mem_singleton.mp hx] at hy
    exact h.gone x hy hoffered

variable [DecidableEq ι]

/-- What can happen to tickets. -/
inductive Step (t : Tickets ι τ) : Tickets ι τ → Prop
  /-- Taken, and lost at once. -/
  | lose (x : τ) (hoffered : x ∈ t.offered) : Step t {t with offered := t.offered \ {x}, taken := t.taken ++ [x]}
  | hold (i : ι) (x : τ) (hoffered : x ∈ t.offered) : Step t {t with
      offered := t.offered \ {x}, taken := t.taken ++ [x], held := Function.update t.held i (some x)}
  | drop (i : ι) : Step t {t with held := Function.update t.held i none}
  | use (i : ι) (x : τ) (hheld : t.held i = some x) : Step t {t with
      held := Function.update t.held i none, used := t.used ++ [x]}

/-- Nobody holds more than before but `i`, who may hold nothing. -/
theorem held_of_update_none {held : ι → Option τ} {i j : ι} {x : τ} (h : Function.update held i none j = some x) :
    j ≠ i ∧ held j = some x := by
  by_cases hji : j = i
  · rw [hji, Function.update_self] at h
    cases h
  · rw [Function.update_of_ne hji] at h
    exact ⟨hji, h⟩

/-- **A step leaves every ticket in one place.** -/
theorem Proper.step {t t' : Tickets ι τ} (h : t.Proper) (hstep : Step t t') : t'.Proper := by
  cases hstep with
  | lose x hoffered =>
    obtain ⟨hgone, honce⟩ := h.taken_snoc hoffered
    refine ⟨hgone, honce, fun i y hy => ?_, h.apart, fun y hy => ?_, h.single⟩
    · exact List.mem_append_left _ (h.holder i y hy)
    · obtain ⟨htaken, hunheld⟩ := h.spent y hy
      exact ⟨List.mem_append_left _ htaken, hunheld⟩
  | hold i x hoffered =>
    obtain ⟨hgone, honce⟩ := h.taken_snoc hoffered
    have hfresh : x ∉ t.taken := fun hmem => h.gone x hmem hoffered
    -- Whoever holds a ticket now held it before, or is `i` with the new one.
    have hheld : ∀ j y, Function.update t.held i (some x) j = some y → (j = i ∧ y = x) ∨ (j ≠ i ∧ t.held j = some y) := by
      intro j y hy
      by_cases hji : j = i
      · rw [hji, Function.update_self] at hy
        cases hy
        exact .inl ⟨hji, rfl⟩
      · rw [Function.update_of_ne hji] at hy
        exact .inr ⟨hji, hy⟩
    refine ⟨hgone, honce, fun j y hy => ?_, fun j k y hj hk => ?_, fun y hy => ?_, h.single⟩
    · rcases hheld j y hy with ⟨-, rfl⟩ | ⟨-, hold⟩
      · exact List.mem_append_right _ (List.mem_singleton_self y)
      · exact List.mem_append_left _ (h.holder j y hold)
    · rcases hheld j y hj with ⟨rfl, hyx⟩ | ⟨-, hjold⟩
      · rcases hheld k y hk with ⟨rfl, -⟩ | ⟨-, hkold⟩
        · rfl
        · exact absurd (hyx ▸ h.holder k y hkold) hfresh
      · rcases hheld k y hk with ⟨-, hyx⟩ | ⟨-, hkold⟩
        · exact absurd (hyx ▸ h.holder j y hjold) hfresh
        · exact h.apart j k y hjold hkold
    · obtain ⟨htaken, hunheld⟩ := h.spent y hy
      refine ⟨List.mem_append_left _ htaken, fun j hj => ?_⟩
      rcases hheld j y hj with ⟨-, hyx⟩ | ⟨-, hold⟩
      · exact hfresh (hyx ▸ htaken)
      · exact hunheld j hold
  | drop i =>
    refine ⟨h.gone, h.once, fun j y hy => ?_, fun j k y hj hk => ?_, fun y hy => ?_, h.single⟩
    · exact h.holder j y (held_of_update_none hy).2
    · exact h.apart j k y (held_of_update_none hj).2 (held_of_update_none hk).2
    · obtain ⟨htaken, hunheld⟩ := h.spent y hy
      exact ⟨htaken, fun j hj => hunheld j (held_of_update_none hj).2⟩
  | use i x hheld =>
    have hunused : x ∉ t.used := fun hmem => (h.spent x hmem).2 i hheld
    refine ⟨h.gone, h.once, fun j y hy => ?_, fun j k y hj hk => ?_, fun y hy => ?_, ?_⟩
    · exact h.holder j y (held_of_update_none hy).2
    · exact h.apart j k y (held_of_update_none hj).2 (held_of_update_none hk).2
    · rcases List.mem_append.mp hy with hold | hnew
      · obtain ⟨htaken, hunheld⟩ := h.spent y hold
        exact ⟨htaken, fun j hj => hunheld j (held_of_update_none hj).2⟩
      · cases List.mem_singleton.mp hnew
        refine ⟨h.holder i _ hheld, fun j hj => ?_⟩
        obtain ⟨hji, hj⟩ := held_of_update_none hj
        exact hji (h.apart j i _ hj hheld)
    · apply h.single.append (List.nodup_singleton x)
      intro y hy hx
      rw [List.mem_singleton.mp hx] at hy
      exact hunused hy

end Tickets

end Lib
