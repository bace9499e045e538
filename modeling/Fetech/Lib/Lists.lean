import Mathlib.Data.List.Nodup
import Mathlib.Data.List.Sort
import Mathlib.Algebra.Order.Ring.Nat
import Mathlib.Algebra.Order.Ring.Int

/-! Facts about lists that are changed at one place. -/
namespace Lib.Lists
variable {α β : Type*}

/-- Counting after a change at one place. -/
theorem countP_modify (p : α → Bool) (f : α → α) {l : List α} {i : Nat} {a : α} (h : l[i]? = some a) :
    (l.modify i f).countP p + (if p a then 1 else 0) = l.countP p + (if p (f a) then 1 else 0) := by
  induction l generalizing i with
  | nil => simp at h
  | cons b rest ih =>
    cases i with
    | zero =>
      simp only [List.getElem?_cons_zero, Option.some.injEq] at h
      subst h
      simp only [List.modify_zero_cons, List.countP_cons]
      omega
    | succ i =>
      have := ih (i := i) (by simpa using h)
      simp only [List.modify_succ_cons, List.countP_cons]
      omega

/-- What is not changed is what it was. -/
theorem mem_modify {f : α → α} {l : List α} {i : Nat} {a x : α} (ha : l[i]? = some a)
    (hx : x ∈ l.modify i f) : x ∈ l ∨ x = f a := by
  obtain ⟨j, hj⟩ := List.mem_iff_getElem?.mp hx
  rw [List.getElem?_modify] at hj
  obtain ⟨b, hb, hbx⟩ := Option.map_eq_some_iff.mp hj
  by_cases hij : i = j
  · subst hij
    rw [ha] at hb
    cases hb
    exact Or.inr (by simpa using hbx.symm)
  · rw [if_neg hij] at hbx
    exact Or.inl (hbx ▸ List.mem_of_getElem? hb)

theorem map_modify_of_same {k : α → β} {f : α → α} (hf : ∀ a, k (f a) = k a) (l : List α) (i : Nat) :
    (l.modify i f).map k = l.map k := by
  apply List.ext_getElem?
  intro j
  simp only [List.getElem?_map, List.getElem?_modify, Option.map_eq_map, Option.map_map]
  cases l[j]? with
  | none => rfl
  | some a =>
    by_cases hij : i = j
    · simp [hij, hf]
    · simp [hij]

/-- Of elements told apart by a key, what remains after one is taken out has
another key. -/
theorem key_ne_of_mem_eraseIdx {k : α → β} {l : List α} (hl : (l.map k).Nodup) {i : Nat} {a b : α}
    (ha : l[i]? = some a) (hb : b ∈ l.eraseIdx i) : k b ≠ k a := by
  obtain ⟨j, hj, hjb⟩ := List.mem_eraseIdx_iff_getElem?.mp hb
  intro hk
  have hkeys : (l.map k)[j]? = (l.map k)[i]? := by
    rw [List.getElem?_map, List.getElem?_map, ha, hjb]
    simp [hk]
  have hlt : j < (l.map k).length := by
    rw [List.length_map]
    exact (List.getElem?_eq_some_iff.mp hjb).1
  exact hj ((List.getElem?_inj hlt hl).mp hkeys)

/-- Writing back what stands there changes nothing. -/
theorem set_same {l : List α} {i : Nat} {a : α} (h : l[i]? = some a) : l.set i a = l := by
  refine List.ext_getElem? fun j => ?_
  rw [List.getElem?_set]
  split
  · rename_i hij
    subst hij
    rw [h, if_pos (List.getElem?_eq_some_iff.mp h).1]
  · rfl

/-- What stands in a list after one place was written: the new value, or what stood
somewhere else. -/
theorem mem_set_cases {l : List α} {i : Nat} {a x : α} (hx : x ∈ l.set i a) : x = a ∨ x ∈ l.eraseIdx i := by
  obtain ⟨j, hj⟩ := List.mem_iff_getElem?.mp hx
  rw [List.getElem?_set] at hj
  split at hj
  · split at hj
    · cases hj
      exact .inl rfl
    · cases hj
  · rename_i hij
    exact .inr (List.mem_eraseIdx_iff_getElem?.mpr ⟨j, fun h => hij h.symm, hj⟩)

/-- What some element satisfies some element still satisfies, if the new value does where
the old one did. -/
theorem exists_mem_set {P : α → Prop} {l : List α} {i : Nat} {a b : α} (ha : l[i]? = some a) (hP : P a → P b)
    (h : ∃ x ∈ l, P x) : ∃ x ∈ l.set i b, P x := by
  obtain ⟨x, hx, hPx⟩ := h
  obtain ⟨j, hj⟩ := List.mem_iff_getElem?.mp hx
  have hi := (List.getElem?_eq_some_iff.mp ha).1
  by_cases hij : i = j
  · subst hij
    rw [ha] at hj
    cases hj
    exact ⟨b, List.mem_set hi _, hP hPx⟩
  · exact ⟨x, List.mem_iff_getElem?.mpr ⟨j, by rw [List.getElem?_set, if_neg hij, hj]⟩, hPx⟩

/-- A sum after one place was written. -/
theorem sum_map_set {M : Type*} [AddCommMonoid M] (f : α → M) {l : List α} {i : Nat} {a : α} (h : l[i]? = some a)
    (x : α) : ((l.set i x).map f).sum + f a = (l.map f).sum + f x := by
  induction l generalizing i with
  | nil => simp at h
  | cons b rest ih =>
    cases i with
    | zero =>
      simp only [List.getElem?_cons_zero, Option.some.injEq] at h
      subst h
      simp only [List.set_cons_zero, List.map_cons, List.sum_cons]
      rw [add_right_comm, add_comm (f x), add_right_comm]
    | succ i =>
      have hrest := ih (i := i) (by simpa using h)
      simp only [List.set_cons_succ, List.map_cons, List.sum_cons]
      rw [add_assoc, hrest, add_assoc]

/-- Elements that grow by at most one each. -/
theorem sum_map_le_add_length (f g : α → Nat) {l : List α} (h : ∀ x ∈ l, f x ≤ g x + 1) :
    (l.map f).sum ≤ (l.map g).sum + l.length := by
  induction l with
  | nil => simp
  | cons b rest ih =>
    have hb := h b List.mem_cons_self
    have := ih fun x hx => h x (List.mem_cons_of_mem _ hx)
    simp only [List.map_cons, List.sum_cons, List.length_cons]
    omega

/-- Amounts that are zero or below their allowances add up the same way. -/
theorem sum_zero_or_lt {xs ys : List Int} (h : List.Forall₂ (fun x y => 0 ≤ y ∧ (x = 0 ∨ x < y)) xs ys) :
    xs.sum ≤ ys.sum ∧ (xs.sum = 0 ∨ xs.sum < ys.sum) := by
  induction h with
  | nil => simp
  | cons hxy _ ih =>
    simp only [List.sum_cons]
    omega

/-- One element from each of the lists, in order. -/
theorem map_sublist_flatMap {γ : Type*} {f : α → γ} {g : α → List γ} {l : List α} (h : ∀ x ∈ l, f x ∈ g x) :
    (l.map f).Sublist (l.flatMap g) := by
  induction l with
  | nil => exact List.Sublist.refl []
  | cons x rest ih =>
    rw [List.map_cons, List.flatMap_cons]
    have hfirst : [f x].Sublist (g x) := List.singleton_sublist.mpr (h x List.mem_cons_self)
    exact hfirst.append (ih fun y hy => h y (List.mem_cons_of_mem x hy))

/-- What lists are joined to comes from them or from the separator. -/
theorem mem_intercalate {sep : List α} {pieces : List (List α)} {a : α} (h : a ∈ sep.intercalate pieces) :
    a ∈ sep ∨ ∃ piece ∈ pieces, a ∈ piece := by
  induction pieces with
  | nil => cases h
  | cons piece rest ih =>
    cases rest with
    | nil =>
      rw [List.intercalate_singleton] at h
      exact .inr ⟨piece, List.mem_cons_self, h⟩
    | cons next rest =>
      rw [List.intercalate_cons_cons] at h
      obtain h | h := List.mem_append.mp h
      · obtain h | h := List.mem_append.mp h
        · exact .inr ⟨piece, List.mem_cons_self, h⟩
        · exact .inl h
      · obtain h | ⟨other, hother, h⟩ := ih h
        · exact .inl h
        · exact .inr ⟨other, List.mem_cons_of_mem _ hother, h⟩

theorem mem_head?_intercalate {sep : List α} (hsep : sep ≠ []) {pieces : List (List α)} {a : α}
    (h : a ∈ (sep.intercalate pieces).head?) : a ∈ sep.head? ∨ ∃ piece ∈ pieces.head?, a ∈ piece.head? := by
  match pieces with
  | [] => cases h
  | [piece] =>
    rw [List.intercalate_singleton] at h
    exact .inr ⟨piece, rfl, h⟩
  | piece :: next :: rest =>
    rw [List.intercalate_cons_cons, List.append_assoc, List.head?_append, List.head?_append] at h
    cases hpiece : piece.head? with
    | some b =>
      rw [hpiece] at h
      exact .inr ⟨piece, rfl, hpiece.trans h⟩
    | none =>
      obtain ⟨b, sep', rfl⟩ := List.exists_cons_of_ne_nil hsep
      rw [hpiece] at h
      exact .inl h

/-! ### Sorting -/

section
variable {r : α → α → Prop} [DecidableRel r]

theorem orderedInsert_of_forall {a : α} {l : List α} (h : ∀ b ∈ l, r a b) : l.orderedInsert r a = a :: l := by
  cases l with
  | nil => rfl
  | cons b l => rw [List.orderedInsert_cons, if_pos (h b List.mem_cons_self)]

theorem filter_orderedInsert [IsTrans α r] (p : α → Bool) (a : α) {l : List α} (hl : l.Pairwise r) :
    (l.orderedInsert r a).filter p = if p a then (l.filter p).orderedInsert r a else l.filter p := by
  induction l with
  | nil => cases hp : p a <;> simp [hp]
  | cons b l ih =>
    obtain ⟨hb, hrest⟩ := List.pairwise_cons.mp hl
    rw [List.orderedInsert_cons]
    split
    · rename_i hab
      have hall : ∀ c ∈ b :: l, r a c := List.forall_mem_cons.mpr ⟨hab, fun c hc => IsTrans.trans a b c hab (hb c hc)⟩
      rw [List.filter_cons, orderedInsert_of_forall fun c hc => hall c (List.mem_of_mem_filter hc)]
    · rename_i hab
      rw [List.filter_cons, ih hrest, List.filter_cons]
      cases hp : p a with
      | false => simp
      | true => cases hq : p b <;> simp [hab]

/-- A sort keeps the order of what a filter keeps. -/
theorem filter_insertionSort [IsTrans α r] [Std.Total r] (p : α → Bool) (l : List α) :
    (l.insertionSort r).filter p = (l.filter p).insertionSort r := by
  induction l with
  | nil => rfl
  | cons a l ih =>
    rw [List.insertionSort_cons, filter_orderedInsert p a (List.pairwise_insertionSort r l), ih, List.filter_cons]
    cases hp : p a with
    | false => rfl
    | true => rfl

end

/-! ### What ends at a mark -/

/-- Two lists that end at the first of a mark are told apart by what is before it. -/
theorem append_cons_inj {mark : α} {l l' rest rest' : List α} (hl : mark ∉ l) (hl' : mark ∉ l')
    (h : l ++ mark :: rest = l' ++ mark :: rest') : l = l' ∧ rest = rest' := by
  induction l generalizing l' with
  | nil =>
    cases l' with
    | nil => exact ⟨rfl, (List.cons.inj h).2⟩
    | cons a l' => exact absurd (List.cons.inj h).1 (fun heq => hl' (heq ▸ List.mem_cons_self))
  | cons a l ih =>
    rw [List.mem_cons, not_or] at hl
    cases l' with
    | nil => exact absurd (List.cons.inj h).1.symm hl.1
    | cons a' l' =>
      rw [List.mem_cons, not_or] at hl'
      obtain ⟨rfl, htail⟩ := List.cons.inj h
      obtain ⟨rfl, hrest⟩ := ih hl.2 hl'.2 htail
      exact ⟨rfl, hrest⟩

/-! ### Walking a tree -/

/-- Where a walk has been and what is on its stack, as paths from the root: no place twice, and what is on
the stack is above nothing else. -/
structure Separate (visited stack : List (List α)) : Prop where
  nodup : (visited ++ stack).Nodup
  above : ∀ p ∈ stack, ∀ q ∈ visited ++ stack, p <+: q → p = q

theorem separate_root (p : List α) : Separate [] [p] where
  nodup := List.nodup_singleton p
  above _ hq _ hr _ := (List.mem_singleton.mp hq).trans (List.mem_singleton.mp hr).symm

/-- **A step of the walk** visits the top of the stack and puts its children there, by steps that differ. -/
theorem Separate.visit {visited stack : List (List α)} {p : List α} {steps : List α} (h : Separate visited (p :: stack))
    (hsteps : steps.Nodup) : Separate (visited ++ [p]) (steps.map (fun step => p ++ [step]) ++ stack) := by
  have htop : ∀ q ∈ visited ++ p :: stack, p <+: q → p = q := h.above p List.mem_cons_self
  have honce : p ∉ stack := fun hmem =>
    (List.nodup_cons.mp (List.nodup_append.mp h.nodup).2.1).1 hmem
  constructor
  · have hperm : (visited ++ [p] ++ (steps.map (fun step => p ++ [step]) ++ stack)).Perm
        (visited ++ p :: stack ++ steps.map fun step => p ++ [step]) := by
      simp only [List.append_assoc, List.cons_append, List.nil_append]
      exact (List.perm_append_comm.cons p).append_left visited
    rw [hperm.nodup_iff, List.nodup_append]
    refine ⟨h.nodup, hsteps.map fun _ _ heq => by simpa using heq, fun q hq r hr heq => ?_⟩
    obtain ⟨step, -, rfl⟩ := List.mem_map.mp hr
    have hsame := htop q hq (heq ▸ List.prefix_append p [step])
    simp [← hsame] at heq
  · intro q hq r hr hprefix
    have hr : r ∈ visited ++ p :: stack ∨ ∃ step ∈ steps, p ++ [step] = r := by
      simp only [List.mem_append, List.mem_map, List.mem_cons, List.not_mem_nil, or_false] at hr ⊢
      tauto
    obtain hq | hq := List.mem_append.mp hq
    · obtain ⟨step, -, rfl⟩ := List.mem_map.mp hq
      obtain hr | ⟨step', -, rfl⟩ := hr
      · have hsame := htop r hr ((List.prefix_append p [step]).trans hprefix)
        have hlength := hprefix.length_le
        simp [← hsame] at hlength
      · exact hprefix.eq_of_length (by simp)
    · obtain hr | ⟨step, -, rfl⟩ := hr
      · exact h.above q (List.mem_cons_of_mem _ hq) r hr hprefix
      · obtain heq | habove := List.prefix_concat_iff.mp hprefix
        · exact heq
        · have hsame := h.above q (List.mem_cons_of_mem _ hq) p (List.mem_append_right _ List.mem_cons_self) habove
          exact absurd (hsame ▸ hq) honce

end Lib.Lists
