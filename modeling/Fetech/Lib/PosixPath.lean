import Fetech.Lib.Text

/-! Paths as `PurePosixPath` reads and writes them.

A path is its root and the parts after it, without empty and single-dot parts. What was read is
written in one way, and reading that gives the same path (`parse_asPosix`); nothing is written
that was not there (`asPosix_sublist`). -/
namespace Lib

/-! ### Cutting and joining at a separator -/

section
variable {α : Type} {sep : α}

theorem splitOn_cons [DecidableEq α] (c : α) (s : List α) :
    (c :: s).splitOn sep = if c = sep then [] :: s.splitOn sep else (s.splitOn sep).modifyHead (c :: ·) := by
  rw [List.splitOn_cons_eq_if_modifyHead]
  simp only [beq_iff_eq]

/-- A function that keeps the separator apart from the rest may be applied to the pieces. -/
theorem splitOn_map [DecidableEq α] {f : α → α} (hf : ∀ a, f a = sep ↔ a = sep) (s : List α) :
    (s.map f).splitOn sep = (s.splitOn sep).map (List.map f) := by
  induction s with
  | nil => rfl
  | cons a rest ih =>
    rw [List.map_cons, splitOn_cons, splitOn_cons, ih]
    by_cases ha : a = sep
    · rw [if_pos ((hf a).mpr ha), if_pos ha]
      rfl
    · rw [if_neg (fun h => ha ((hf a).mp h)), if_neg ha]
      cases hsplit : rest.splitOn sep with
      | nil => exact absurd hsplit (List.splitOn_ne_nil sep rest)
      | cons first others => rfl

theorem notMem_of_mem_splitOn [DecidableEq α] {s part : List α} (h : part ∈ s.splitOn sep) : sep ∉ part := by
  induction s generalizing part with
  | nil =>
    rw [List.splitOn_nil, List.mem_singleton] at h
    subst h
    exact List.not_mem_nil
  | cons c rest ih =>
    rw [splitOn_cons] at h
    split at h
    · obtain rfl | h := List.mem_cons.mp h
      · exact List.not_mem_nil
      · exact ih h
    · rename_i hc
      cases hsplit : rest.splitOn sep with
      | nil => exact absurd hsplit (List.splitOn_ne_nil sep rest)
      | cons first others =>
        rw [hsplit] at h ih
        obtain rfl | h := List.mem_cons.mp h
        · intro hmem
          obtain rfl | hmem := List.mem_cons.mp hmem
          · exact hc rfl
          · exact ih List.mem_cons_self hmem
        · exact ih (List.mem_cons_of_mem _ h)

/-- Leaving out pieces leaves out what they say. -/
theorem intercalate_sublist {pieces pieces' : List (List α)} (h : List.Sublist pieces' pieces) :
    List.Sublist ([sep].intercalate pieces') ([sep].intercalate pieces) := by
  induction h with
  | slnil => exact List.Sublist.refl _
  | cons piece h ih =>
    rename_i pieces' pieces
    cases pieces with
    | nil =>
      rw [List.sublist_nil.mp h]
      exact List.nil_sublist _
    | cons next rest =>
      rw [List.intercalate_cons_cons]
      exact ih.trans (List.sublist_append_right _ _)
  | cons_cons piece h ih =>
    rename_i pieces' pieces
    cases pieces' with
    | nil =>
      rw [List.intercalate_singleton]
      cases pieces with
      | nil => rw [List.intercalate_singleton]
      | cons next rest =>
        rw [List.intercalate_cons_cons, List.append_assoc]
        exact List.sublist_append_left _ _
    | cons next' rest' =>
      cases pieces with
      | nil => cases h
      | cons next rest =>
        rw [List.intercalate_cons_cons, List.intercalate_cons_cons]
        exact (List.Sublist.refl _).append ih

end

def slash : CodePoint := 0x2f
def dot : CodePoint := 0x2e

namespace PosixPath

inductive Root where
  | none | single | double
  deriving DecidableEq

def Root.text : Root → Text
  | none => []
  | single => [slash]
  | double => [slash, slash]

/-- The root of a path: two slashes, unless a third follows, are one of their own. -/
def splitroot : Text → Root × Text
  | [] => (.none, [])
  | a :: rest =>
    if a ≠ slash then (.none, a :: rest)
    else match rest with
      | [] => (.single, [])
      | b :: rest =>
        if b ≠ slash then (.single, b :: rest)
        else if rest.head? = some slash then (.single, b :: rest)
        else (.double, rest)

/-- What may be a part of a path. -/
def isPart (part : Text) : Bool := !part.isEmpty && part != [dot]

end PosixPath

/-- A path as it was read. -/
structure PosixPath where
  root : PosixPath.Root
  tail : List Text
  parts : ∀ part ∈ tail, PosixPath.isPart part = true ∧ slash ∉ part

namespace PosixPath

/-- `PurePosixPath(path)`. -/
def parse (path : Text) : PosixPath where
  root := (splitroot path).1
  tail := ((splitroot path).2.splitOn slash).filter isPart
  parts part hpart := by
    rw [List.mem_filter] at hpart
    exact ⟨hpart.2, notMem_of_mem_splitOn hpart.1⟩

variable (p : PosixPath)

def isAbsolute : Bool := p.root != .none

/-- `path.as_posix()`. -/
def asPosix : Text :=
  if p.root = .none ∧ p.tail = [] then [dot] else p.root.text ++ [slash].intercalate p.tail

/-- `path.name`. -/
def name : Text := p.tail.getLast?.getD []

/-- `path.suffix`: from the last dot of the name, unless that is its first or last character. -/
def suffix : Text :=
  let ext := p.name.reverse.takeWhile (· ≠ dot)
  if ext = [] ∨ p.name.length ≤ ext.length + 1 then [] else dot :: ext.reverse

/-- `path / other` -/
def join (q : PosixPath) : PosixPath where
  root := if q.isAbsolute then q.root else p.root
  tail := if q.isAbsolute then q.tail else p.tail ++ q.tail
  parts part hpart := by
    split at hpart
    · exact q.parts part hpart
    · obtain hpart | hpart := List.mem_append.mp hpart
      · exact p.parts part hpart
      · exact q.parts part hpart

/-- `path.is_relative_to(other)` -/
def isRelativeTo (q : PosixPath) : Bool := p.root = q.root && q.tail.isPrefixOf p.tail

variable {p}

@[ext]
theorem ext {q : PosixPath} (hroot : p.root = q.root) (htail : p.tail = q.tail) : p = q := by
  cases p
  cases q
  cases hroot
  cases htail
  rfl

theorem filter_splitOn_intercalate (h : p.tail ≠ []) : (([slash].intercalate p.tail).splitOn slash).filter isPart = p.tail := by
  rw [List.splitOn_intercalate slash (fun part hpart => (p.parts part hpart).2) h, List.filter_eq_self]
  exact fun part hpart => (p.parts part hpart).1

/-- A path without a root begins with no slash. -/
theorem head_intercalate : ([slash].intercalate p.tail).head? ≠ some slash := by
  cases htail : p.tail with
  | nil => simp
  | cons part rest =>
    obtain ⟨hpart, hslash⟩ := p.parts part (htail ▸ List.mem_cons_self)
    cases part with
    | nil => cases hpart
    | cons c part =>
      rw [List.intercalate_cons_cons_left, List.head?_cons]
      intro heq
      cases heq
      exact hslash List.mem_cons_self

theorem splitroot_append (root : Root) {rest : Text} (h : rest.head? ≠ some slash) :
    splitroot (root.text ++ rest) = (root, rest) := by
  cases root with
  | none =>
    cases rest with
    | nil => rfl
    | cons c rest =>
      have hc : c ≠ slash := fun heq => h (by rw [heq]; rfl)
      simp [Root.text, splitroot, hc]
  | single =>
    cases rest with
    | nil => rfl
    | cons c rest =>
      have hc : c ≠ slash := fun heq => h (by rw [heq]; rfl)
      simp [Root.text, splitroot, hc]
  | double => simp [Root.text, splitroot, h]

/-- **What is written is read as the path it was.** -/
theorem parse_asPosix (p : PosixPath) : parse p.asPosix = p := by
  unfold asPosix
  split
  · rename_i h
    obtain ⟨hroot, htail⟩ := h
    exact ext (hroot ▸ by decide) (htail ▸ by decide)
  · rename_i h
    have hsplit := splitroot_append p.root p.head_intercalate
    refine ext ?_ ?_
    · show (splitroot _).1 = p.root
      rw [hsplit]
    · show (((splitroot _).2.splitOn slash).filter isPart) = p.tail
      rw [hsplit]
      by_cases htail : p.tail = []
      · rw [htail]
        rfl
      · exact filter_splitOn_intercalate htail

theorem splitroot_eq (path : Text) : (splitroot path).1.text ++ (splitroot path).2 = path := by
  unfold splitroot
  split
  · rfl
  · split
    · rfl
    · rename_i a rest h
      have ha : a = slash := not_not.mp h
      subst ha
      split
      · rfl
      · split
        · rfl
        · split
          · rfl
          · rename_i b rest hb _
            rw [not_not.mp hb]
            rfl

/-- The root holds no part. -/
theorem parse_tail (path : Text) : (parse path).tail = (path.splitOn slash).filter isPart := by
  show ((splitroot path).2.splitOn slash).filter isPart = _
  have hslash : ∀ rest : Text, ((slash :: rest).splitOn slash).filter isPart = (rest.splitOn slash).filter isPart := by
    intro rest
    rw [splitOn_cons, if_pos rfl]
    rfl
  conv => rhs; rw [← splitroot_eq path]
  cases (splitroot path).1 with
  | none => rfl
  | single => exact (hslash _).symm
  | double => exact ((hslash _).trans (hslash _)).symm

/-- Nothing is written that was not there, except for a path of no parts. -/
theorem asPosix_sublist {path : Text} (h : parse path ≠ parse [dot]) : List.Sublist (parse path).asPosix path := by
  unfold asPosix
  split
  · rename_i hnone
    exact absurd (ext hnone.1 hnone.2) h
  · conv => rhs; rw [← splitroot_eq path]
    refine (List.Sublist.refl _).append ?_
    have hpieces : List.Sublist ([slash].intercalate (parse path).tail) ([slash].intercalate ((splitroot path).2.splitOn slash)) :=
      intercalate_sublist List.filter_sublist
    rwa [List.intercalate_splitOn] at hpieces

/-! ### A single component -/

section
variable {name : Text} (hslash : slash ∉ name) (hpart : isPart name = true)
include hslash hpart

/-- A name without a slash is a path of its own. -/
theorem parse_component : (parse name).root = .none ∧ (parse name).tail = [name] := by
  have hroot : splitroot name = (.none, name) := by
    cases name with
    | nil => rfl
    | cons c rest =>
      have hc : c ≠ slash := fun heq => hslash (heq ▸ List.mem_cons_self)
      simp [splitroot, hc]
  constructor
  · show (splitroot name).1 = .none
    rw [hroot]
  · show ((splitroot name).2.splitOn slash).filter isPart = [name]
    rw [hroot, List.splitOn_eq_singleton hslash, List.filter_singleton, hpart]
    rfl

theorem asPosix_component : (parse name).asPosix = name := by
  obtain ⟨hroot, htail⟩ := parse_component hslash hpart
  rw [asPosix, if_neg (fun h => by simp [htail] at h), hroot, htail, List.intercalate_singleton]
  rfl

theorem suffix_component (hdot : dot ∉ name) : (parse name).suffix = [] := by
  obtain ⟨-, htail⟩ := parse_component hslash hpart
  have hname : (parse name).name = name := by rw [PosixPath.name, htail]; rfl
  have hall : name.reverse.takeWhile (· ≠ dot) = name.reverse := by
    have hne : ∀ c ∈ name.reverse, decide (c ≠ dot) = true := fun c hc =>
      decide_eq_true fun heq => hdot (heq ▸ List.mem_reverse.mp hc)
    have happend : (name.reverse ++ []).takeWhile (fun c => decide (c ≠ dot)) = name.reverse ++ [].takeWhile _ :=
      List.takeWhile_append_of_pos hne
    rwa [List.append_nil, List.takeWhile_nil, List.append_nil] at happend
  rw [suffix, hname, hall, List.length_reverse]
  exact if_pos (.inr (Nat.le_succ _))

end

end PosixPath
end Lib
