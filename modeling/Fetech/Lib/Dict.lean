import Mathlib.Data.List.Nodup
import Mathlib.Data.List.Induction
import Mathlib.Data.List.Pairwise
import Mathlib.Algebra.Order.Ring.Nat
import Mathlib.Algebra.BigOperators.Group.List.Basic

/-! Dictionaries that keep the order in which their keys were first set.

A key occurs once (`nodup`), setting a present key keeps its place, a new key goes
last and `moveToEnd` takes a key there. Mathlib's `AList` puts what is inserted
first and forgets the old place, which a reader of the values in order would see. -/
namespace Lib

structure Dict (κ ν : Type*) where
  entries : List (κ × ν)
  nodup : (entries.map Prod.fst).Nodup
  deriving DecidableEq

namespace Dict
variable {κ ν : Type*} [DecidableEq κ]

/-! ### Entries -/

/-- Replace the value at a key, or put the pair last. -/
def put (k : κ) (v : ν) : List (κ × ν) → List (κ × ν)
  | [] => [(k, v)]
  | e :: rest => if e.1 = k then (k, v) :: rest else e :: put k v rest

/-- Drop the pair at a key. -/
def drop (k : κ) : List (κ × ν) → List (κ × ν)
  | [] => []
  | e :: rest => if e.1 = k then rest else e :: drop k rest

def find (k : κ) : List (κ × ν) → Option ν
  | [] => none
  | e :: rest => if e.1 = k then some e.2 else find k rest

theorem keys_put (k : κ) (v : ν) (l : List (κ × ν)) :
    (put k v l).map Prod.fst = if k ∈ l.map Prod.fst then l.map Prod.fst else l.map Prod.fst ++ [k] := by
  induction l with
  | nil => simp [put]
  | cons e rest ih =>
    by_cases h : e.1 = k
    · simp [put, h]
    · have hk : k ≠ e.1 := fun hk => h hk.symm
      simp only [put, if_neg h, List.map_cons, ih, List.mem_cons, hk, false_or]
      split <;> simp

theorem keys_drop_sublist (k : κ) (l : List (κ × ν)) :
    ((drop k l).map Prod.fst).Sublist (l.map Prod.fst) := by
  induction l with
  | nil => exact List.Sublist.refl _
  | cons e rest ih =>
    by_cases h : e.1 = k
    · simp [drop, h]
    · simpa [drop, h] using ih

theorem find_put (k k' : κ) (v : ν) (l : List (κ × ν)) :
    find k' (put k v l) = if k' = k then some v else find k' l := by
  induction l with
  | nil =>
    by_cases h : k' = k
    · simp [put, find, h]
    · simp [put, find, h, Ne.symm h]
  | cons e rest ih =>
    by_cases h : e.1 = k
    · by_cases hk : k' = k
      · simp [put, find, h, hk]
      · simp [put, find, h, hk, Ne.symm hk]
    · by_cases hk : k' = k
      · subst hk
        simp [put, find, h, ih]
      · simp [put, find, h, ih, hk]

theorem find_eq_none {k : κ} {l : List (κ × ν)} (h : k ∉ l.map Prod.fst) : find k l = none := by
  induction l with
  | nil => rfl
  | cons e rest ih =>
    simp only [List.map_cons, List.mem_cons, not_or] at h
    simp [find, Ne.symm h.1, ih h.2]

theorem find_drop (k k' : κ) (l : List (κ × ν)) (hl : (l.map Prod.fst).Nodup) :
    find k' (drop k l) = if k' = k then none else find k' l := by
  induction l with
  | nil => simp [drop, find]
  | cons e rest ih =>
    rw [List.map_cons, List.nodup_cons] at hl
    by_cases h : e.1 = k
    · by_cases hk : k' = k
      · subst hk
        simp [drop, h, find_eq_none (h ▸ hl.1)]
      · have hne : ¬ k = k' := fun he => hk he.symm
        simp [drop, h, find, hk, hne]
    · by_cases hk : k' = k
      · subst hk
        simp [drop, find, h, ih hl.2]
      · simp [drop, find, h, ih hl.2, hk]

theorem put_of_absent {k : κ} {l : List (κ × ν)} (v : ν) (h : find k l = none) : put k v l = l ++ [(k, v)] := by
  induction l with
  | nil => rfl
  | cons e rest ih =>
    by_cases he : e.1 = k
    · simp [find, he] at h
    · simp only [find, he, if_false] at h
      simp [put, he, ih h]

theorem drop_eq_self {k : κ} {l : List (κ × ν)} (h : find k l = none) : drop k l = l := by
  induction l with
  | nil => rfl
  | cons e rest ih =>
    by_cases he : e.1 = k
    · simp [find, he] at h
    · simp only [find, he, if_false] at h
      simp [drop, he, ih h]

theorem mem_of_find {k : κ} {v : ν} {l : List (κ × ν)} (h : find k l = some v) : (k, v) ∈ l := by
  induction l with
  | nil => simp [find] at h
  | cons e rest ih =>
    by_cases he : e.1 = k
    · simp only [find, he, if_true, Option.some.injEq] at h
      rw [← he, ← h]
      exact List.mem_cons_self ..
    · simp only [find, he, if_false] at h
      exact List.mem_cons_of_mem _ (ih h)

theorem find_of_mem {k : κ} {v : ν} {l : List (κ × ν)} (hl : (l.map Prod.fst).Nodup)
    (h : (k, v) ∈ l) : find k l = some v := by
  induction l with
  | nil => cases h
  | cons e rest ih =>
    rw [List.map_cons, List.nodup_cons] at hl
    rcases List.mem_cons.mp h with rfl | h
    · simp [find]
    · have hne : e.1 ≠ k := fun he => hl.1 (he ▸ List.mem_map_of_mem (f := Prod.fst) h)
      simp [find, hne, ih hl.2 h]

/-! ### Operations -/

def empty : Dict κ ν := ⟨[], List.nodup_nil⟩

instance : EmptyCollection (Dict κ ν) := ⟨empty⟩
instance : Inhabited (Dict κ ν) := ⟨empty⟩

def get? (d : Dict κ ν) (k : κ) : Option ν := find k d.entries

def getD (d : Dict κ ν) (k : κ) (default : ν) : ν := (d.get? k).getD default

def values (d : Dict κ ν) : List ν := d.entries.map Prod.snd

def size (d : Dict κ ν) : Nat := d.entries.length

def set (d : Dict κ ν) (k : κ) (v : ν) : Dict κ ν where
  entries := put k v d.entries
  nodup := by
    rw [keys_put]
    split
    · exact d.nodup
    · rename_i h
      exact List.nodup_append.mpr ⟨d.nodup, List.nodup_singleton _, by
        intro a ha b hb
        rw [List.mem_singleton] at hb
        exact fun hab => h (hb ▸ hab ▸ ha)⟩

/-- `d.update(other)`. -/
def update (d other : Dict κ ν) : Dict κ ν := other.entries.foldl (fun d e => d.set e.1 e.2) d

def erase (d : Dict κ ν) (k : κ) : Dict κ ν where
  entries := drop k d.entries
  nodup := d.nodup.sublist (keys_drop_sublist k d.entries)

/-- The key's pair, taken to the end. -/
def moveToEnd (d : Dict κ ν) (k : κ) : Dict κ ν :=
  match d.get? k with
  | some v => (d.erase k).set k v
  | none => d

/-- Without its first pairs, as long as they satisfy the test. -/
def dropWhile (d : Dict κ ν) (p : κ × ν → Bool) : Dict κ ν where
  entries := d.entries.dropWhile p
  nodup := d.nodup.sublist ((d.entries.dropWhile_sublist p).map Prod.fst)

@[simp] theorem get?_empty (k : κ) : (∅ : Dict κ ν).get? k = none := rfl

@[simp] theorem get?_set (d : Dict κ ν) (k k' : κ) (v : ν) :
    (d.set k v).get? k' = if k' = k then some v else d.get? k' := find_put k k' v d.entries

@[simp] theorem get?_erase (d : Dict κ ν) (k k' : κ) :
    (d.erase k).get? k' = if k' = k then none else d.get? k' := find_drop k k' d.entries d.nodup

theorem erase_of_absent {d : Dict κ ν} {k : κ} (h : d.get? k = none) : d.erase k = d := by
  have hdrop : drop k d.entries = d.entries := drop_eq_self h
  simp only [erase, hdrop]

theorem erase_erase (d : Dict κ ν) (k : κ) : (d.erase k).erase k = d.erase k := erase_of_absent (by simp)

/-- A new key goes last. -/
theorem entries_set_of_absent {d : Dict κ ν} {k : κ} (h : d.get? k = none) (v : ν) :
    (d.set k v).entries = d.entries ++ [(k, v)] := put_of_absent v h

theorem get?_update {d other : Dict κ ν} {k : κ} {v : ν} (h : (d.update other).get? k = some v) :
    d.get? k = some v ∨ (k, v) ∈ other.entries := by
  have hfold : ∀ (l : List (κ × ν)) (d : Dict κ ν), (l.foldl (fun d e => d.set e.1 e.2) d).get? k = some v →
      d.get? k = some v ∨ (k, v) ∈ l := by
    intro l
    induction l with
    | nil => exact fun d h => .inl h
    | cons e rest ih =>
      intro d h
      obtain h | h := ih _ h
      · rw [get?_set] at h
        split at h
        · rename_i hk
          cases h
          exact .inr (by rw [hk]; exact List.mem_cons_self ..)
        · exact .inl h
      · exact .inr (List.mem_cons_of_mem e h)
  exact hfold other.entries d h

theorem get?_update_of_mem (d : Dict κ ν) {other : Dict κ ν} {k : κ} {v : ν} (h : (k, v) ∈ other.entries) :
    (d.update other).get? k = some v := by
  have hfold : ∀ (l : List (κ × ν)) (d : Dict κ ν), (l.map Prod.fst).Nodup → (k, v) ∈ l ∨ (d.get? k = some v ∧
      k ∉ l.map Prod.fst) → (l.foldl (fun d e => d.set e.1 e.2) d).get? k = some v := by
    intro l
    induction l with
    | nil =>
      intro d _ h
      obtain h | ⟨h, -⟩ := h
      · cases h
      · exact h
    | cons e rest ih =>
      intro d hnodup h
      rw [List.map_cons, List.nodup_cons] at hnodup
      obtain h | ⟨h, hk⟩ := h
      · obtain rfl | h := List.mem_cons.mp h
        · exact ih _ hnodup.2 (.inr ⟨by simp, hnodup.1⟩)
        · exact ih _ hnodup.2 (.inl h)
      · rw [List.map_cons, List.mem_cons, not_or] at hk
        exact ih _ hnodup.2 (.inr ⟨by simp [hk.1, h], hk.2⟩)
  exact hfold other.entries d other.nodup (.inl h)

theorem get?_eq_some_iff (d : Dict κ ν) (k : κ) (v : ν) : d.get? k = some v ↔ (k, v) ∈ d.entries :=
  ⟨mem_of_find, find_of_mem d.nodup⟩

theorem mem_values (d : Dict κ ν) (v : ν) : v ∈ d.values ↔ ∃ k, d.get? k = some v := by
  simp only [values, List.mem_map, Prod.exists, exists_eq_right, get?_eq_some_iff]

theorem getD_set (d : Dict κ ν) (k k' : κ) (v default : ν) :
    (d.set k v).getD k' default = if k' = k then v else d.getD k' default := by
  simp only [getD, get?_set]
  split <;> rfl

theorem getD_erase (d : Dict κ ν) (k k' : κ) (default : ν) :
    (d.erase k).getD k' default = if k' = k then default else d.getD k' default := by
  simp only [getD, get?_erase]
  split <;> rfl

theorem drop_eq_filter {k : κ} {l : List (κ × ν)} (hl : (l.map Prod.fst).Nodup) :
    drop k l = l.filter fun e => e.1 ≠ k := by
  induction l with
  | nil => rfl
  | cons e rest ih =>
    rw [List.map_cons, List.nodup_cons] at hl
    by_cases h : e.1 = k
    · have hrest : rest.filter (fun e => e.1 ≠ k) = rest := List.filter_eq_self.mpr fun x hx =>
        decide_eq_true fun hk => hl.1 (h ▸ hk ▸ List.mem_map_of_mem hx)
      rw [drop, if_pos h, List.filter_cons, if_neg (by simp [h]), hrest]
    · simp [drop, h, ih hl.2]

/-- Setting a key and taking it to the end: whatever it held is out, the pair is last. -/
theorem entries_moveToEnd_set (d : Dict κ ν) (k : κ) (v : ν) :
    ((d.set k v).moveToEnd k).entries = (d.entries.filter fun e => e.1 ≠ k) ++ [(k, v)] := by
  have habsent : ((d.set k v).erase k).get? k = none := by simp
  have hkeys : ((d.set k v).entries.map Prod.fst).Nodup := (d.set k v).nodup
  have hput : ((put k v d.entries).filter fun e => e.1 ≠ k) = d.entries.filter fun e => e.1 ≠ k := by
    induction d.entries with
    | nil => simp [put]
    | cons e rest ih =>
      by_cases h : e.1 = k
      · simp [put, h]
      · simp only [put, h, if_false, List.filter_cons, ih]
  simp only [moveToEnd, get?_set, if_true]
  rw [entries_set_of_absent habsent v]
  exact congrArg (· ++ [(k, v)]) ((drop_eq_filter hkeys).trans hput)

/-! ### The last pair of each key

A log of pairs holds a key any number of times; `latest` keeps its last pair, in the
order of these last pairs. -/

def latest (log : List (κ × ν)) : List (κ × ν) := log.pwFilter fun x y => x.1 ≠ y.1

theorem latest_sublist (log : List (κ × ν)) : (latest log).Sublist log := List.pwFilter_sublist log

theorem latest_cons (x : κ × ν) (log : List (κ × ν)) :
    latest (x :: log) = if x.1 ∈ log.map Prod.fst then latest log else x :: latest log := by
  have hall : (∀ y ∈ latest log, x.1 ≠ y.1) ↔ x.1 ∉ log.map Prod.fst := by
    rw [latest, List.forall_mem_pwFilter (R := fun x y : κ × ν => x.1 ≠ y.1) (fun {x y z} h => ?_)]
    · simp only [List.mem_map, not_exists, not_and]
      exact forall₂_congr fun y _ => ne_comm
    · by_cases hxy : x.1 = y.1
      · exact .inr (hxy ▸ h)
      · exact .inl hxy
  by_cases h : x.1 ∈ log.map Prod.fst
  · rw [if_pos h]
    exact List.pwFilter_cons_of_neg (fun hx => hall.mp hx h)
  · rw [if_neg h]
    exact List.pwFilter_cons_of_pos (hall.mpr h)

theorem latest_concat (log : List (κ × ν)) (e : κ × ν) :
    latest (log ++ [e]) = ((latest log).filter fun x => x.1 ≠ e.1) ++ [e] := by
  induction log with
  | nil => rfl
  | cons x rest ih =>
    rw [List.cons_append, latest_cons, latest_cons, ih]
    simp only [List.map_append, List.mem_append, List.map_cons, List.map_nil, List.mem_singleton]
    by_cases hx : x.1 ∈ rest.map Prod.fst
    · rw [if_pos hx, if_pos (.inl hx)]
    · by_cases he : x.1 = e.1
      · rw [if_neg hx, if_pos (.inr he), List.filter_cons, if_neg (by simp [he])]
      · rw [if_neg hx, if_neg (not_or.mpr ⟨hx, he⟩), List.filter_cons, if_pos (by simp [he]), List.cons_append]

/-- The last pair of a key stands at or after any other, so a relation between the pairs
of one key in order relates that one to the last. -/
theorem exists_latest {R : κ × ν → κ × ν → Prop} {log : List (κ × ν)}
    (hlog : log.Pairwise fun x y => x.1 = y.1 → R x y) {x : κ × ν} (hx : x ∈ log) :
    ∃ y ∈ latest log, y.1 = x.1 ∧ (y = x ∨ R x y) := by
  induction log using List.reverseRecOn with
  | nil => cases hx
  | append_singleton rest e ih =>
    obtain ⟨hrest, -, hlast⟩ := List.pairwise_append.mp hlog
    rw [latest_concat]
    by_cases hkey : x.1 = e.1
    · refine ⟨e, by simp, hkey.symm, ?_⟩
      obtain hx | hx := List.mem_append.mp hx
      · exact .inr (hlast x hx e (List.mem_singleton_self e) hkey)
      · exact .inl (List.mem_singleton.mp hx).symm
    · obtain hx | hx := List.mem_append.mp hx
      · obtain ⟨y, hy, hyx, hrel⟩ := ih hrest hx
        have hne : y.1 ≠ e.1 := fun h => hkey (hyx.symm.trans h)
        exact ⟨y, List.mem_append_left _ (List.mem_filter.mpr ⟨hy, decide_eq_true hne⟩), hyx, hrel⟩
      · exact absurd (congrArg Prod.fst (List.mem_singleton.mp hx)) hkey

/-! ### Totals -/

/-- The sum of the values. -/
def total (d : Dict κ Nat) : Nat := d.values.sum

private theorem sum_put (k : κ) (v : Nat) (l : List (κ × Nat)) :
    ((put k v l).map Prod.snd).sum + (find k l).getD 0 = (l.map Prod.snd).sum + v := by
  induction l with
  | nil => simp [put, find]
  | cons e rest ih =>
    by_cases h : e.1 = k
    · simp [put, find, h]
      omega
    · simp only [put, find, h, if_false, List.map_cons, List.sum_cons]
      omega

private theorem sum_drop (k : κ) (l : List (κ × Nat)) :
    ((drop k l).map Prod.snd).sum + (find k l).getD 0 = (l.map Prod.snd).sum := by
  induction l with
  | nil => simp [drop, find]
  | cons e rest ih =>
    by_cases h : e.1 = k
    · simp [drop, find, h]
      omega
    · simp only [drop, find, h, if_false, List.map_cons, List.sum_cons]
      omega

theorem total_set (d : Dict κ Nat) (k : κ) (v : Nat) :
    (d.set k v).total + d.getD k 0 = d.total + v := sum_put k v d.entries

theorem total_erase (d : Dict κ Nat) (k : κ) : (d.erase k).total + d.getD k 0 = d.total :=
  sum_drop k d.entries

end Dict
end Lib
