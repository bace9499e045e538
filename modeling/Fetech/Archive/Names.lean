import Fetech.Archive

/-! Names that a member may have (`fetech/adapters/archive.py`, `_validate_name`).

A name that is accepted comes out as `pathlib` writes it: relative, without a parent component,
backslash or control character. It is accepted again as it is (`validateName_idem`), so a second
process that checks it changes nothing. -/
namespace Fetech.Archive
open Lib Lib.Except

def parent : Text := Text.ofString ".."

/-- What the name rule asks of a name, beside that its path stays below the root. -/
structure Clean (name : Text) : Prop where
  size : ∃ n ≤ maximumNameBytes, name.utf8Length? = some n
  noBackslash : backslash ∉ name
  noNul : 0 ∉ name
  noControl : ∀ c ∈ name, 32 ≤ c.val

/-- A path that stays below the root, and is not the root. -/
structure Inside (path : PosixPath) : Prop where
  relative : path.root = .none
  noParent : parent ∉ path.tail
  named : path.tail ≠ []

/-- What is left out of a clean name leaves a clean name. -/
theorem Clean.sublist {name name' : Text} (h : Clean name) (hsub : List.Sublist name' name) : Clean name' where
  size := by
    obtain ⟨n, hn, hsize⟩ := h.size
    obtain ⟨m, hm, hsize'⟩ := Text.utf8Length?_sublist hsub hsize
    exact ⟨m, hm.trans hn, hsize'⟩
  noBackslash hmem := h.noBackslash (hsub.subset hmem)
  noNul hmem := h.noNul (hsub.subset hmem)
  noControl c hc := h.noControl c (hsub.subset hc)

theorem isAbsolute_eq_false {path : PosixPath} : path.isAbsolute = false ↔ path.root = .none := by
  simp [PosixPath.isAbsolute]

section
variable {path : PosixPath} (h : Inside path)
include h

theorem Inside.asPosix_eq : path.asPosix = [slash].intercalate path.tail := by
  rw [PosixPath.asPosix, if_neg (fun hnone => h.named hnone.2), h.relative]
  rfl

/-- The components of a path are read off its text. -/
theorem Inside.splitOn_asPosix : path.asPosix.splitOn slash = path.tail := by
  rw [h.asPosix_eq]
  exact List.splitOn_intercalate slash (fun part hpart => (path.parts part hpart).2) h.named

theorem Inside.head_asPosix : path.asPosix.head? ≠ some slash := by
  rw [h.asPosix_eq]
  exact path.head_intercalate

theorem Inside.asPosix_ne_nil : path.asPosix ≠ [] := by
  intro hnil
  have hsplit := h.splitOn_asPosix
  rw [hnil, List.splitOn_nil] at hsplit
  have hpart := (path.parts [] (by rw [← hsplit]; exact List.mem_singleton_self _)).1
  cases hpart

theorem Inside.not_startsWith_slash : Text.startsWith [slash] path.asPosix = false := by
  have hhead := h.head_asPosix
  cases hpath : path.asPosix with
  | nil => rfl
  | cons c rest =>
    rw [hpath] at hhead
    have hc : slash ≠ c := fun heq => hhead (by rw [heq]; rfl)
    show (slash == c && List.isPrefixOf [] rest) = false
    rw [beq_eq_false_iff_ne.mpr hc, Bool.false_and]

theorem Inside.not_startsWith_parent : Text.startsWith (parent ++ [slash]) path.asPosix = false := by
  rw [Bool.eq_false_iff]
  intro hstart
  obtain ⟨rest, hrest⟩ := List.isPrefixOf_iff_prefix.mp hstart
  have hsplit := h.splitOn_asPosix
  rw [← hrest, List.append_assoc, List.singleton_append,
    List.splitOn_append_cons_self_of_not_mem (by decide)] at hsplit
  exact h.noParent (hsplit ▸ List.mem_cons_self)

end

/-- **Which names are accepted, and as what.** -/
theorem validateName_eq_ok {name normalized : Text} : validateName name = .ok normalized ↔
    name ≠ [] ∧ Clean name ∧ Inside (PosixPath.parse name) ∧ normalized = (PosixPath.parse name).asPosix := by
  simp only [validateName, bind_eq_ok, require_eq_ok, ofOption_eq_ok, Bool.and_eq_true, Bool.not_eq_true',
    decide_eq_true_eq, List.isEmpty_eq_false_iff, isAbsolute_eq_false, List.contains_eq_mem, decide_eq_false_iff_not]
  constructor
  · intro h
    obtain ⟨_, hne, size, hsize, _, ⟨⟨⟨hle, hback⟩, hnul⟩, hcontrol⟩, _, ⟨⟨hrel, hparent⟩, hnamed⟩, _, -, heq⟩ := h
    cases heq
    refine ⟨hne, ⟨⟨size, hle, hsize⟩, hback, hnul, ?_⟩, ⟨hrel, hparent, hnamed⟩, rfl⟩
    rw [List.any_eq_false] at hcontrol
    intro c hc
    simpa [isControl] using hcontrol c hc
  · intro hlawful
    obtain ⟨hne, hclean, hinside, hnormalized⟩ := hlawful
    obtain ⟨size, hle, hsize⟩ := hclean.size
    have hcontrol : name.any isControl = false := by
      rw [List.any_eq_false]
      intro c hc
      simpa [isControl] using hclean.noControl c hc
    exact ⟨(), hne, size, hsize, (), ⟨⟨⟨hle, hclean.noBackslash⟩, hclean.noNul⟩, hcontrol⟩, (),
      ⟨⟨hinside.relative, hinside.noParent⟩, hinside.named⟩, (),
      ⟨hinside.not_startsWith_slash, hinside.not_startsWith_parent⟩, hnormalized ▸ rfl⟩

/-- **A name that came out is accepted as it is.** -/
theorem validateName_idem {name normalized : Text} (h : validateName name = .ok normalized) :
    validateName normalized = .ok normalized := by
  obtain ⟨-, hclean, hinside, rfl⟩ := validateName_eq_ok.mp h
  have hparse := PosixPath.parse_asPosix (PosixPath.parse name)
  have hsub : List.Sublist (PosixPath.parse name).asPosix name := by
    apply PosixPath.asPosix_sublist
    intro hdot
    exact hinside.named (hdot ▸ rfl)
  rw [validateName_eq_ok, hparse]
  exact ⟨hinside.asPosix_ne_nil, hclean.sublist hsub, hinside, rfl⟩

/-- A name by which a member can be stored anywhere. -/
structure Portable (name : Text) : Prop where
  relative : name.head? ≠ some slash
  noParent : parent ∉ name.splitOn slash
  noBackslash : backslash ∉ name
  noNul : 0 ∉ name
  noControl : ∀ c ∈ name, 32 ≤ c.val
  unchanged : validateName name = .ok name

theorem portable_of_validateName {name normalized : Text} (h : validateName name = .ok normalized) :
    Portable normalized := by
  have hidem := validateName_idem h
  obtain ⟨-, hclean, hinside, heq⟩ := validateName_eq_ok.mp hidem
  refine ⟨?_, ?_, hclean.noBackslash, hclean.noNul, hclean.noControl, hidem⟩
  · rw [heq]
    exact hinside.head_asPosix
  · rw [heq, hinside.splitOn_asPosix]
    exact hinside.noParent

/-- A name is recorded that was not there in any case. -/
theorem recordName_eq_ok {t : CaseTables} {name : Text} {seen seen' : List Text} : recordName t name seen = .ok seen' ↔
    t.casefold name ∉ seen ∧ seen' = t.casefold name :: seen := by
  simp only [recordName, bind_eq_ok, require_eq_ok, Bool.not_eq_true', List.contains_eq_mem, decide_eq_false_iff_not]
  constructor
  · intro hrecorded
    obtain ⟨_, hnew, hseen⟩ := hrecorded
    cases hseen
    exact ⟨hnew, rfl⟩
  · intro hlawful
    obtain ⟨hnew, hseen⟩ := hlawful
    exact ⟨(), hnew, hseen ▸ rfl⟩

end Fetech.Archive
