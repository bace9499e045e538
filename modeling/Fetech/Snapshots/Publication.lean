import Fetech.Snapshots
import Mathlib.Data.Set.Finite.Basic

/-! Publishing the metadata of a snapshot (`fetech/adapters/cache.py`, `_write_immutable`).

Calls for one path run side by side, a system call at a time. Each writes a temporary file of its own
and links it to the path; of a file that is there already it reads the content and compares. What the
system chooses (whether a call of it fails, how much one read or write moves, the random part of a
name) comes with the step as its `Answer`. -/
namespace Fetech.Snapshots
open Lib Storage

/-! ### A directory -/

structure File where
  kind : Kind
  content : Bytes

/-- The names in a directory and the files they stand for; the files from `next` on are not in use. -/
structure Directory where
  names : List Char → Option Nat
  files : Nat → File
  next : Nat

namespace Directory

def create (d : Directory) (name : List Char) : Directory where
  names := Function.update d.names name (some d.next)
  files := Function.update d.files d.next ⟨.regular, []⟩
  next := d.next + 1

def append (d : Directory) (fd : Nat) (data : Bytes) : Directory :=
  {d with files := Function.update d.files fd ⟨(d.files fd).kind, (d.files fd).content ++ data⟩}

def link (d : Directory) (name : List Char) (i : Nat) : Directory := {d with names := Function.update d.names name (some i)}

def unlink (d : Directory) (name : List Char) : Directory := {d with names := Function.update d.names name none}

/-- What the file of a name holds. -/
def content? (d : Directory) (name : List Char) : Option Bytes := (d.names name).map fun i => (d.files i).content

end Directory

/-- `*.json` matches. -/
def isJsonName (name : List Char) : Bool := ".json".toList.isSuffixOf name

/-- `directory.glob("*.json")` -/
def Directory.glob (d : Directory) : Set (List Char) := {name | (d.names name).isSome = true ∧ isJsonName name = true}

/-! ### `_write_immutable` -/

inductive WriteError where
  | os
  | snapshot (err : SnapshotError)
  deriving DecidableEq

/-- The temporary file of a call: its name, and the file its descriptor opened. -/
structure Draft where
  name : List Char
  fd : Nat
  deriving DecidableEq

abbrev Outcome := Except WriteError Unit

inductive WritePc where
  /-- `mkdir` of the parent -/
  | entering
  | staging
  | writing (t : Draft) (written : Nat)
  | linking (t : Draft)
  -- `_read_existing_immutable`
  | opening (t : Draft)
  | stating (t : Draft) (fd : Nat)
  | reading (t : Draft) (fd : Nat) (body : Bytes)
  /-- `_fsync_directory` after `os.link` -/
  | securing (t : Draft)
  /-- `finally`, first its `unlink` and then, of what was published, its `_fsync_directory` -/
  | cleaning (t : Draft) (published : Bool) (outcome : Outcome)
  | confirming (outcome : Outcome)
  | finished (outcome : Outcome)

/-- What the system decides about one call of it. -/
structure Reply where
  fails : Bool := false
  /-- How many bytes one read or write moves at most; it moves one if it can. -/
  amount : Nat := 0
  random : List Char := []

/-- A name of `mkstemp`. -/
def temporaryName (file random : List Char) : List Char := '.' :: (file ++ '.' :: (random ++ ".tmp".toList))

def unsafePath : WriteError := .snapshot (.integrity "immutable snapshot metadata path is unsafe")

def collision : WriteError := .snapshot (.integrity "immutable snapshot metadata collision")

/-- The comparison with a body that was read up to one byte more than the limit. -/
def compareExisting (encoded body : Bytes) : Outcome :=
  if maxMetadataBytes < body.length then .error (.snapshot (.integrity "snapshot metadata exceeds the read bound"))
  else if body ≠ encoded then .error collision
  else .ok ()

section
variable (file : List Char)

/-- `os.link(temporary_path, path)` -/
def linkDraft (d : Directory) (t : Draft) : WritePc × Directory :=
  match d.names t.name with
  | none => (.cleaning t false (.error .os), d)
  | some i =>
    match d.names file with
    | some _ => (.opening t, d)
    | none => (.securing t, d.link file i)

/-- `os.open`, which follows no symbolic link. -/
def openExisting (d : Directory) (t : Draft) : WritePc :=
  match d.names file with
  | none => .cleaning t false (.error unsafePath)
  | some i => if (d.files i).kind = .symlink then .cleaning t false (.error unsafePath) else .stating t i

/-- The next system call of `_write_immutable`. -/
def writeStep (encoded : Bytes) (d : Directory) (a : Reply) : WritePc → Option (WritePc × Directory)
  | .entering => some (if a.fails then .finished (.error .os) else .staging, d)
  | .staging =>
    if a.fails then some (.finished (.error .os), d)
    else
      let name := temporaryName file a.random
      if d.names name = none then some (.writing ⟨name, d.next⟩ 0, d.create name) else none
  | .writing t written =>
    if a.fails then some (.cleaning t false (.error .os), d)
    else if written < encoded.length then
      let data := (encoded.drop written).take (max 1 a.amount)
      some (.writing t (written + data.length), d.append t.fd data)
    -- All is flushed: `fsync`.
    else some (.linking t, d)
  | .linking t => if a.fails then some (.cleaning t false (.error .os), d) else some (linkDraft file d t)
  | .opening t => some (if a.fails then .cleaning t false (.error unsafePath) else openExisting file d t, d)
  | .stating t fd =>
    some (if a.fails then .cleaning t false (.error .os)
      else if (d.files fd).kind ≠ .regular then .cleaning t false (.error unsafePath)
      else .reading t fd [], d)
  | .reading t fd body =>
    let data := rawRead (d.files fd).content body.length (maxMetadataBytes + 1 - body.length) a.amount
    some (if a.fails then .cleaning t false (.error .os)
      else if data ≠ [] ∧ (body ++ data).length < maxMetadataBytes + 1 then .reading t fd (body ++ data)
      else .cleaning t false (compareExisting encoded (body ++ data)), d)
  | .securing t => some (if a.fails then .cleaning t false (.error .os) else .cleaning t true (.ok ()), d)
  | .cleaning t published outcome =>
    if a.fails then some (.finished (.error .os), d)
    else some (if published then .confirming outcome else .finished outcome, d.unlink t.name)
  | .confirming outcome => some (.finished (if a.fails then .error .os else outcome), d)
  | .finished _ => none

/-! ### Calls side by side -/

structure Writers where
  directory : Directory
  calls : Nat → Option (Bytes × WritePc)

inductive WriteAct where
  | start (id : Nat) (encoded : Bytes)
  /-- The next system call of a running call. -/
  | step (id : Nat) (a : Reply)

def writersStep (s : Writers) : WriteAct → Option Writers
  | .start id encoded =>
    if s.calls id = none then some {s with calls := Function.update s.calls id (some (encoded, .entering))} else none
  | .step id a =>
    match s.calls id with
    | none => none
    | some (encoded, pc) =>
      (writeStep file encoded s.directory a pc).map fun (pc, directory) =>
        {directory, calls := Function.update s.calls id (some (encoded, pc))}

def writers : Machine Writers WriteAct := ⟨writersStep file⟩

/-- Before the first call: at the path there is nothing, or a regular file within the limit. -/
structure Idle (s : Writers) : Prop where
  calls : ∀ id, s.calls id = none
  used : ∀ name i, s.directory.names name = some i → i < s.directory.next
  finite : {name | (s.directory.names name).isSome = true}.Finite
  existing : ∀ i, s.directory.names file = some i →
    (s.directory.files i).kind = .regular ∧ (s.directory.files i).content.length ≤ maxMetadataBytes

end

/-! ### What a step of a call does -/

namespace Directory
variable (d : Directory) (name name' : List Char) (fd fd' : Nat) (data : Bytes)

@[simp] theorem names_create : (d.create name).names name' = if name' = name then some d.next else d.names name' := by
  simp [create, Function.update_apply]

@[simp] theorem files_create : (d.create name).files fd = if fd = d.next then ⟨.regular, []⟩ else d.files fd := by
  simp [create, Function.update_apply]

@[simp] theorem names_append : (d.append fd data).names = d.names := rfl

@[simp] theorem files_append : (d.append fd data).files fd' =
    if fd' = fd then ⟨(d.files fd).kind, (d.files fd).content ++ data⟩ else d.files fd' := by
  simp [append, Function.update_apply]

@[simp] theorem names_link : (d.link name fd).names name' = if name' = name then some fd else d.names name' := by
  simp [link, Function.update_apply]

@[simp] theorem files_link : (d.link name fd).files = d.files := rfl

@[simp] theorem names_unlink : (d.unlink name).names name' = if name' = name then none else d.names name' := by
  simp [unlink, Function.update_apply]

@[simp] theorem files_unlink : (d.unlink name).files = d.files := rfl

end Directory

/-- A temporary name is longer than the path's. -/
theorem temporaryName_ne (file random : List Char) : temporaryName file random ≠ file := by
  intro h
  have hlength := congrArg List.length h
  simp only [temporaryName, List.length_cons, List.length_append] at hlength
  omega

/-- A scan does not see a temporary name. -/
theorem isJsonName_temporary (file random : List Char) : isJsonName (temporaryName file random) = false := by
  rw [← Bool.not_eq_true, isJsonName, List.isSuffixOf_iff_suffix]
  intro h
  have htail : ".tmp".toList <:+ temporaryName file random := ⟨'.' :: (file ++ '.' :: random), by simp [temporaryName]⟩
  have hsuffix := List.suffix_of_suffix_length_le htail h (by decide)
  exact absurd hsuffix (by decide)

namespace WritePc

/-- The temporary file of a call, from its creation until it is unlinked. -/
def draft? : WritePc → Option Draft
  | .writing t _ | .linking t | .opening t | .stating t _ | .reading t _ _ | .securing t | .cleaning t _ _ => some t
  | .entering | .staging | .confirming _ | .finished _ => none

/-- A temporary file that no other name stands for, and what it holds. -/
def drafted? (encoded : Bytes) : WritePc → Option (Draft × Bytes)
  | .writing t written => some (t, encoded.take written)
  | .linking t => some (t, encoded)
  | _ => none

end WritePc

section
variable {file : List Char}

/-- All that a step can do to the directory, and to a call's hold on its temporary file. -/
inductive WriteEffect (file : List Char) (d : Directory) (encoded : Bytes) (pc : WritePc) : WritePc → Directory → Prop
  | quiet {pc' : WritePc} (hdraft : ∀ t, pc'.draft? = some t → pc.draft? = some t)
      (hdrafted : ∀ p, pc'.drafted? encoded = some p → pc.drafted? encoded = some p) : WriteEffect file d encoded pc pc' d
  | created (random : List Char) (hpc : pc = .staging) (hfree : d.names (temporaryName file random) = none) :
      WriteEffect file d encoded pc (.writing ⟨temporaryName file random, d.next⟩ 0) (d.create (temporaryName file random))
  | wrote (t : Draft) (written amount : Nat) (hpc : pc = .writing t written) :
      WriteEffect file d encoded pc (.writing t (written + ((encoded.drop written).take amount).length))
        (d.append t.fd ((encoded.drop written).take amount))
  | linked (t : Draft) (i : Nat) (hpc : pc = .linking t) (hname : d.names t.name = some i) (hfree : d.names file = none) :
      WriteEffect file d encoded pc (.securing t) (d.link file i)
  | unlinked (t : Draft) (published : Bool) (outcome : Outcome) (hpc : pc = .cleaning t published outcome) :
      WriteEffect file d encoded pc (if published then .confirming outcome else .finished outcome) (d.unlink t.name)

/-- **The inversion lemma** of `writeStep`. -/
theorem writeStep_effect {encoded : Bytes} {d d' : Directory} {a : Reply} {pc pc' : WritePc}
    (h : writeStep file encoded d a pc = some (pc', d')) : WriteEffect file d encoded pc pc' d' := by
  have hquiet : ∀ {t : Draft} {p : WritePc} {outcome : Outcome} {published : Bool}, p.draft? = some t →
      WriteEffect file d encoded p (.cleaning t published outcome) d := by
    intro t p outcome published hp
    exact .quiet (fun t' ht => by cases ht; exact hp) nofun
  cases pc with
  | entering =>
    cases h
    cases a.fails <;> exact .quiet nofun nofun
  | staging =>
    simp only [writeStep] at h
    split at h
    · cases h
      exact .quiet nofun nofun
    · split at h
      · cases h
        exact .created a.random rfl ‹_›
      · cases h
  | writing t written =>
    simp only [writeStep] at h
    split at h
    · cases h
      exact hquiet rfl
    · split at h
      · cases h
        exact .wrote t written _ rfl
      · rename_i hwritten
        cases h
        refine .quiet (fun t' ht => ht) fun p hp => ?_
        cases hp
        show some (t, encoded.take written) = some (t, encoded)
        rw [List.take_of_length_le (Nat.le_of_not_lt hwritten)]
  | linking t =>
    simp only [writeStep, linkDraft] at h
    split at h
    · cases h
      exact hquiet rfl
    · cases hname : d.names t.name with
      | none =>
        simp only [hname] at h
        cases h
        exact hquiet rfl
      | some i =>
        cases hfile : d.names file with
        | some j =>
          simp only [hname, hfile] at h
          cases h
          exact .quiet (fun t' ht => ht) nofun
        | none =>
          simp only [hname, hfile] at h
          cases h
          exact .linked t i rfl hname hfile
  | opening t =>
    cases h
    unfold openExisting
    repeat' split
    all_goals exact .quiet (fun t' ht => by cases ht; rfl) nofun
  | stating t fd =>
    cases h
    repeat' split
    all_goals exact .quiet (fun t' ht => by cases ht; rfl) nofun
  | reading t fd body =>
    simp only [writeStep] at h
    cases h
    repeat' split
    all_goals exact .quiet (fun t' ht => by cases ht; rfl) nofun
  | securing t =>
    simp only [writeStep] at h
    split at h
    · cases h
      exact hquiet rfl
    · cases h
      exact hquiet rfl
  | cleaning t published outcome =>
    simp only [writeStep] at h
    split at h
    · cases h
      exact .quiet nofun nofun
    · cases h
      exact .unlinked t published outcome rfl
  | confirming outcome =>
    cases h
    exact .quiet nofun nofun
  | finished outcome => cases h

/-! ### Whose file is whose -/

/-- What a call knows of its temporary file. -/
structure Holds (file : List Char) (d : Directory) (encoded : Bytes) (pc : WritePc) : Prop where
  draft : ∀ t, pc.draft? = some t → d.names t.name = some t.fd ∧ ∃ random, t.name = temporaryName file random
  drafted : ∀ t content, pc.drafted? encoded = some (t, content) →
    d.files t.fd = ⟨.regular, content⟩ ∧ ∀ name, d.names name = some t.fd → name = t.name

structure Owned (file : List Char) (s : Writers) : Prop where
  used : ∀ name i, s.directory.names name = some i → i < s.directory.next
  holds : ∀ id encoded pc, s.calls id = some (encoded, pc) → Holds file s.directory encoded pc
  apart : ∀ id id' encoded encoded' pc pc' t t', s.calls id = some (encoded, pc) → s.calls id' = some (encoded', pc') →
    pc.draft? = some t → pc'.draft? = some t' → t.name = t'.name → id = id'

theorem draft_of_drafted {pc : WritePc} {encoded content : Bytes} {t : Draft} (h : pc.drafted? encoded = some (t, content)) :
    pc.draft? = some t := by
  cases pc with
  | writing t' written =>
    cases h
    rfl
  | linking t' =>
    cases h
    rfl
  | _ => cases h

/-- What is at the path stays there, as it is. -/
def Stable (file : List Char) (d d' : Directory) : Prop :=
  ∀ i, d.names file = some i → d'.names file = some i ∧ d'.files i = d.files i

section
variable {d d' : Directory} {encoded : Bytes} {pc pc' : WritePc}

/-- **What is published is never changed**: what a call writes to has no name but its temporary one. -/
theorem WriteEffect.stable (h : WriteEffect file d encoded pc pc' d') (hused : ∀ name i, d.names name = some i → i < d.next)
    (hholds : Holds file d encoded pc) : Stable file d d' := by
  intro i hi
  cases h with
  | quiet hdraft hdrafted => exact ⟨hi, rfl⟩
  | created random hpc hfree =>
    have hne : file ≠ temporaryName file random := (temporaryName_ne file random).symm
    have hlt := hused file i hi
    rw [Directory.names_create, if_neg hne, Directory.files_create, if_neg (by omega)]
    exact ⟨hi, rfl⟩
  | wrote t written amount hpc =>
    subst hpc
    obtain ⟨-, halone⟩ := hholds.drafted t _ rfl
    obtain ⟨-, random, hname⟩ := hholds.draft t rfl
    have hne : i ≠ t.fd := by
      intro heq
      have hfile := halone file (heq ▸ hi)
      exact temporaryName_ne file random (hfile.trans hname).symm
    rw [Directory.names_append, Directory.files_append, if_neg hne]
    exact ⟨hi, rfl⟩
  | linked t j hpc hname hfree =>
    rw [hfree] at hi
    cases hi
  | unlinked t published outcome hpc =>
    subst hpc
    obtain ⟨-, random, hname⟩ := hholds.draft t rfl
    have hne : file ≠ t.name := fun heq => temporaryName_ne file random (heq.trans hname).symm
    rw [Directory.names_unlink, if_neg hne]
    exact ⟨hi, rfl⟩

/-- What a call that takes a step knows afterwards. -/
theorem WriteEffect.holds (h : WriteEffect file d encoded pc pc' d') (hused : ∀ name i, d.names name = some i → i < d.next)
    (hholds : Holds file d encoded pc) : Holds file d' encoded pc' := by
  cases h with
  | quiet hdraft hdrafted =>
    exact ⟨fun t ht => hholds.draft t (hdraft t ht), fun t content ht => hholds.drafted t content (hdrafted _ ht)⟩
  | created random hpc hfree =>
    constructor
    · intro t ht
      cases ht
      exact ⟨by simp, random, rfl⟩
    · intro t content ht
      cases ht
      refine ⟨by simp, fun name hname => ?_⟩
      by_contra hne
      rw [Directory.names_create, if_neg hne] at hname
      exact Nat.lt_irrefl _ (hused name _ hname)
  | wrote t written amount hpc =>
    subst hpc
    obtain ⟨hfile, halone⟩ := hholds.drafted t _ rfl
    constructor
    · intro t' ht
      cases ht
      exact hholds.draft t rfl
    · intro t' content ht
      cases ht
      refine ⟨?_, halone⟩
      have hcontent : encoded.take written ++ (encoded.drop written).take amount =
          encoded.take (written + ((encoded.drop written).take amount).length) := by
        rw [List.take_add, List.length_take, ← List.take_eq_take_min]
      rw [Directory.files_append, if_pos rfl, hfile]
      exact congrArg (File.mk .regular) hcontent
  | linked t i hpc hname hfree =>
    subst hpc
    obtain ⟨hnamed, random, htemporary⟩ := hholds.draft t rfl
    refine ⟨fun t' ht => ?_, nofun⟩
    cases ht
    have hne : t.name ≠ file := fun heq => temporaryName_ne file random (htemporary.symm.trans heq)
    exact ⟨by rw [Directory.names_link, if_neg hne]; exact hnamed, random, htemporary⟩
  | unlinked t published outcome hpc =>
    cases published
    · exact ⟨nofun, nofun⟩
    · exact ⟨nofun, nofun⟩

/-- What another call knows, whose temporary file has another name. -/
theorem WriteEffect.others (h : WriteEffect file d encoded pc pc' d') (hused : ∀ name i, d.names name = some i → i < d.next)
    (hholds : Holds file d encoded pc) {other : Bytes} {q : WritePc} (hq : Holds file d other q)
    (hapart : ∀ t t', pc.draft? = some t → q.draft? = some t' → t.name ≠ t'.name) : Holds file d' other q := by
  cases h with
  | quiet hdraft hdrafted => exact hq
  | created random hpc hfree =>
    constructor
    · intro t ht
      obtain ⟨hnamed, htemporary⟩ := hq.draft t ht
      have hne : t.name ≠ temporaryName file random := by
        intro heq
        rw [heq, hfree] at hnamed
        cases hnamed
      exact ⟨by rw [Directory.names_create, if_neg hne]; exact hnamed, htemporary⟩
    · intro t content ht
      obtain ⟨hfile, halone⟩ := hq.drafted t content ht
      have hlt := hused _ _ (hq.draft t (draft_of_drafted ht)).1
      refine ⟨by rw [Directory.files_create, if_neg (by omega)]; exact hfile, fun name hname => ?_⟩
      rw [Directory.names_create] at hname
      split at hname
      · have heq := Option.some.inj hname
        omega
      · exact halone name hname
  | wrote t written amount hpc =>
    subst hpc
    obtain ⟨-, halone⟩ := hholds.drafted t _ rfl
    refine ⟨hq.draft, fun t' content ht => ?_⟩
    obtain ⟨hfile, halone'⟩ := hq.drafted t' content ht
    have hdraft := draft_of_drafted ht
    have hne : t'.fd ≠ t.fd := by
      intro heq
      have hnamed := (hq.draft t' hdraft).1
      rw [heq] at hnamed
      exact hapart t t' rfl hdraft (halone _ hnamed).symm
    exact ⟨by rw [Directory.files_append, if_neg hne]; exact hfile, halone'⟩
  | linked t i hpc hname hfree =>
    subst hpc
    obtain ⟨-, halone⟩ := hholds.drafted t _ rfl
    have hfd : i = t.fd := Option.some.inj (hname.symm.trans (hholds.draft t rfl).1)
    constructor
    · intro t' ht
      obtain ⟨hnamed, random, htemporary⟩ := hq.draft t' ht
      have hne : t'.name ≠ file := fun heq => temporaryName_ne file random (htemporary.symm.trans heq)
      exact ⟨by rw [Directory.names_link, if_neg hne]; exact hnamed, random, htemporary⟩
    · intro t' content ht
      obtain ⟨hfile, halone'⟩ := hq.drafted t' content ht
      have hdraft := draft_of_drafted ht
      refine ⟨hfile, fun name hnamed => ?_⟩
      rw [Directory.names_link] at hnamed
      split at hnamed
      · have heq : t'.fd = t.fd := (Option.some.inj hnamed).symm.trans hfd
        have hother := (hq.draft t' hdraft).1
        rw [heq] at hother
        exact absurd (halone _ hother).symm (hapart t t' rfl hdraft)
      · exact halone' name hnamed
  | unlinked t published outcome hpc =>
    subst hpc
    constructor
    · intro t' ht
      obtain ⟨hnamed, htemporary⟩ := hq.draft t' ht
      have hne : t'.name ≠ t.name := (hapart t t' rfl ht).symm
      exact ⟨by rw [Directory.names_unlink, if_neg hne]; exact hnamed, htemporary⟩
    · intro t' content ht
      obtain ⟨hfile, halone⟩ := hq.drafted t' content ht
      refine ⟨hfile, fun name hnamed => ?_⟩
      rw [Directory.names_unlink] at hnamed
      split at hnamed
      · cases hnamed
      · exact halone name hnamed

theorem WriteEffect.used (h : WriteEffect file d encoded pc pc' d') (hused : ∀ name i, d.names name = some i → i < d.next) :
    ∀ name i, d'.names name = some i → i < d'.next := by
  intro name i hname
  cases h with
  | quiet hdraft hdrafted => exact hused name i hname
  | created random hpc hfree =>
    rw [Directory.names_create] at hname
    show i < d.next + 1
    split at hname
    · have heq := Option.some.inj hname
      omega
    · have hlt := hused name i hname
      omega
  | wrote t written amount hpc => exact hused name i hname
  | linked t j hpc hlinked hfree =>
    rw [Directory.names_link] at hname
    split at hname
    · cases hname
      exact hused t.name i hlinked
    · exact hused name i hname
  | unlinked t published outcome hpc =>
    rw [Directory.names_unlink] at hname
    split at hname
    · cases hname
    · exact hused name i hname

/-- A step keeps its temporary name, takes a new one, or has none any more. -/
theorem WriteEffect.draft (h : WriteEffect file d encoded pc pc' d') {t : Draft} (ht : pc'.draft? = some t) :
    pc.draft? = some t ∨ d.names t.name = none := by
  cases h with
  | quiet hdraft hdrafted => exact .inl (hdraft t ht)
  | created random hpc hfree =>
    cases ht
    exact .inr hfree
  | wrote t' written amount hpc =>
    subst hpc
    exact .inl ht
  | linked t' i hpc hname hfree =>
    subst hpc
    exact .inl ht
  | unlinked t' published outcome hpc =>
    cases published
    · cases ht
    · cases ht

end

/-- The call that a step belongs to, and what it does. -/
theorem writersStep_eq_some {s s' : Writers} {id : Nat} {a : Reply} (h : writersStep file s (.step id a) = some s') :
    ∃ encoded pc pc' d', s.calls id = some (encoded, pc) ∧ writeStep file encoded s.directory a pc = some (pc', d') ∧
      s' = ⟨d', Function.update s.calls id (some (encoded, pc'))⟩ := by
  simp only [writersStep] at h
  split at h
  · cases h
  · rename_i encoded pc hcall
    obtain ⟨⟨pc', d'⟩, hstep, heq⟩ := Option.map_eq_some_iff.mp h
    exact ⟨encoded, pc, pc', d', hcall, hstep, heq.symm⟩

theorem Owned.step {s s' : Writers} {action : WriteAct} (h : Owned file s) (hstep : writersStep file s action = some s') :
    Owned file s' ∧ Stable file s.directory s'.directory := by
  cases action with
  | start id encoded =>
    simp only [writersStep, Option.ite_none_right_eq_some, Option.some.injEq] at hstep
    obtain ⟨hnone, rfl⟩ := hstep
    have hother : ∀ {id' encoded' pc t}, Function.update s.calls id (some (encoded, .entering)) id' = some (encoded', pc) →
        pc.draft? = some t → s.calls id' = some (encoded', pc) := by
      intro id' encoded' pc t hcall ht
      rw [Function.update_apply] at hcall
      split at hcall
      · cases hcall
        cases ht
      · exact hcall
    refine ⟨⟨h.used, fun id' encoded' pc hcall => ?_, ?_⟩, fun i hi => ⟨hi, rfl⟩⟩
    · simp only [Function.update_apply] at hcall
      split at hcall
      · cases hcall
        exact ⟨nofun, nofun⟩
      · exact h.holds id' encoded' pc hcall
    · intro id₁ id₂ encoded₁ encoded₂ pc₁ pc₂ t₁ t₂ hcall₁ hcall₂ ht₁ ht₂ hname
      exact h.apart id₁ id₂ _ _ _ _ t₁ t₂ (hother hcall₁ ht₁) (hother hcall₂ ht₂) ht₁ ht₂ hname
  | step id a =>
    obtain ⟨encoded, pc, pc', d', hcall, hwrite, rfl⟩ := writersStep_eq_some hstep
    have heffect := writeStep_effect hwrite
    have hholds := h.holds id encoded pc hcall
    -- A name that the step gives to its call is no other call's.
    have hkept : ∀ {id' encoded' q t t'}, id' ≠ id → s.calls id' = some (encoded', q) → pc'.draft? = some t →
        q.draft? = some t' → t.name ≠ t'.name := by
      intro id' encoded' q t t' hne hcall' ht ht' heq
      obtain hsame | hfree := heffect.draft ht
      · exact hne (h.apart id' id _ _ _ _ t' t hcall' hcall ht' hsame heq.symm)
      · rw [heq, ((h.holds id' encoded' q hcall').draft t' ht').1] at hfree
        cases hfree
    refine ⟨⟨heffect.used h.used, fun id' encoded' q hcall' => ?_, ?_⟩, heffect.stable h.used hholds⟩
    · simp only [Function.update_apply] at hcall'
      split at hcall'
      · cases hcall'
        exact heffect.holds h.used hholds
      · rename_i hne
        refine heffect.others h.used hholds (h.holds id' encoded' q hcall') fun t t' ht ht' heq => ?_
        exact hne (h.apart id' id _ _ _ _ t' t hcall' hcall ht' ht heq.symm)
    · intro id₁ id₂ encoded₁ encoded₂ pc₁ pc₂ t₁ t₂ hcall₁ hcall₂ ht₁ ht₂ hname
      simp only [Function.update_apply] at hcall₁ hcall₂
      split at hcall₁
      · rename_i hid₁
        cases hcall₁
        split at hcall₂
        · rename_i hid₂
          exact hid₁.trans hid₂.symm
        · rename_i hid₂
          exact absurd hname (hkept hid₂ hcall₂ ht₁ ht₂)
      · rename_i hid₁
        split at hcall₂
        · cases hcall₂
          exact absurd hname.symm (hkept hid₁ hcall₁ ht₂ ht₁)
        · exact h.apart id₁ id₂ _ _ _ _ t₁ t₂ hcall₁ hcall₂ ht₁ ht₂ hname

theorem Idle.owned {s : Writers} (h : Idle file s) : Owned file s where
  used := h.used
  holds id encoded pc hcall := by
    rw [h.calls id] at hcall
    cases hcall
  apart id _ _ _ _ _ _ _ hcall := by
    rw [h.calls id] at hcall
    cases hcall

/-! ### The names in the directory -/

section
variable {d d' : Directory} {encoded : Bytes} {pc pc' : WritePc}

/-- A name that a step adds is the path, or a temporary one. -/
theorem WriteEffect.names (h : WriteEffect file d encoded pc pc' d') :
    ∃ added, (added = file ∨ isJsonName added = false) ∧
      ∀ name, (d'.names name).isSome = true → name = added ∨ (d.names name).isSome = true := by
  cases h with
  | quiet hdraft hdrafted => exact ⟨file, .inl rfl, fun name => .inr⟩
  | created random hpc hfree =>
    refine ⟨temporaryName file random, .inr (isJsonName_temporary file random), fun name hname => ?_⟩
    rw [Directory.names_create] at hname
    split at hname
    · exact .inl ‹_›
    · exact .inr hname
  | wrote t written amount hpc => exact ⟨file, .inl rfl, fun name => .inr⟩
  | linked t i hpc hlinked hfree =>
    refine ⟨file, .inl rfl, fun name hname => ?_⟩
    rw [Directory.names_link] at hname
    split at hname
    · exact .inl ‹_›
    · exact .inr hname
  | unlinked t published outcome hpc =>
    refine ⟨file, .inl rfl, fun name hname => ?_⟩
    rw [Directory.names_unlink] at hname
    split at hname
    · cases hname
    · exact .inr hname

/-- The path is a regular file within the limit, once it is there. -/
def Readable (file : List Char) (d : Directory) : Prop :=
  ∀ i, d.names file = some i → (d.files i).kind = .regular ∧ (d.files i).content.length ≤ maxMetadataBytes

theorem WriteEffect.readable (h : WriteEffect file d encoded pc pc' d') (hused : ∀ name i, d.names name = some i → i < d.next)
    (hholds : Holds file d encoded pc) (hsize : encoded.length ≤ maxMetadataBytes) (hreadable : Readable file d) :
    Readable file d' := by
  intro i hi
  cases hfile : d.names file with
  | some j =>
    obtain ⟨hj, hsame⟩ := h.stable hused hholds j hfile
    cases hi.symm.trans hj
    rw [hsame]
    exact hreadable i hfile
  | none =>
    cases h with
    | quiet hdraft hdrafted =>
      rw [hfile] at hi
      cases hi
    | created random hpc hfree =>
      rw [Directory.names_create, if_neg (temporaryName_ne file random).symm, hfile] at hi
      cases hi
    | wrote t written amount hpc =>
      rw [Directory.names_append, hfile] at hi
      cases hi
    | linked t j hpc hname hfree =>
      subst hpc
      rw [Directory.names_link, if_pos rfl] at hi
      cases hi
      cases hname.symm.trans (hholds.draft t rfl).1
      rw [Directory.files_link, (hholds.drafted t encoded rfl).1]
      exact ⟨rfl, hsize⟩
    | unlinked t published outcome hpc =>
      rw [Directory.names_unlink, hfile] at hi
      split at hi
      · cases hi
      · cases hi

/-! ### What a call returns -/

/-- What a call is to return of the content at the path. -/
def verdict (encoded content : Bytes) : Outcome := if content = encoded then .ok () else .error collision

/-- What a call knows of the path, and what it returns unless a system call of it failed. -/
def Settled (file : List Char) (failed : Prop) (d : Directory) (encoded : Bytes) : WritePc → Prop
  | .entering | .staging | .writing .. | .linking _ => True
  | .opening _ => (d.names file).isSome = true
  | .stating _ fd => d.names file = some fd
  | .reading _ fd body => d.names file = some fd ∧ body <+: (d.files fd).content
  | .securing _ => d.content? file = some encoded
  | .cleaning _ _ outcome | .confirming outcome | .finished outcome =>
    (∃ content, d.content? file = some content ∧ outcome = verdict encoded content) ∨ (failed ∧ ∃ err, outcome = .error err)

theorem Stable.content (h : Stable file d d') {content : Bytes} (hcontent : d.content? file = some content) :
    d'.content? file = some content := by
  obtain ⟨i, hi, hfile⟩ := Option.map_eq_some_iff.mp hcontent
  obtain ⟨hi', hsame⟩ := h i hi
  rw [Directory.content?, hi', Option.map_some, hsame, hfile]

theorem Settled.stable {failed : Prop} (h : Settled file failed d encoded pc) (hstable : Stable file d d') :
    Settled file failed d' encoded pc := by
  have houtcome : ∀ {outcome : Outcome},
      (∃ content, d.content? file = some content ∧ outcome = verdict encoded content) ∨ (failed ∧ ∃ err, outcome = .error err) →
      (∃ content, d'.content? file = some content ∧ outcome = verdict encoded content) ∨
        (failed ∧ ∃ err, outcome = .error err) := by
    intro outcome hknown
    refine hknown.imp_left ?_
    intro ⟨content, hcontent, hsame⟩
    exact ⟨content, hstable.content hcontent, hsame⟩
  cases pc with
  | opening t =>
    obtain ⟨i, hi⟩ := Option.isSome_iff_exists.mp h
    show (d'.names file).isSome = true
    rw [(hstable i hi).1]
    rfl
  | stating t fd => exact (hstable fd h).1
  | reading t fd body =>
    obtain ⟨hfd, hbody⟩ := h
    obtain ⟨hfd', hsame⟩ := hstable fd hfd
    exact ⟨hfd', by rw [hsame]; exact hbody⟩
  | securing t => exact hstable.content h
  | cleaning t published outcome => exact houtcome h
  | confirming outcome => exact houtcome h
  | finished outcome => exact houtcome h
  | _ => trivial

/-- A step that fails leads to an error. -/
theorem writeStep_fails {a : Reply} (ha : a.fails = true) (hstep : writeStep file encoded d a pc = some (pc', d')) {failed : Prop}
    (hfailed : failed) : Settled file failed d' encoded pc' := by
  cases pc with
  | linking t =>
    simp only [writeStep, ha, if_true] at hstep
    cases hstep
    exact .inr ⟨hfailed, _, rfl⟩
  | finished outcome => cases hstep
  | _ =>
    simp only [writeStep, ha, if_true] at hstep
    cases hstep
    exact .inr ⟨hfailed, _, rfl⟩

/-- One read goes on with the content, and ends only where that does. -/
theorem rawRead_ahead {content body : Bytes} (h : body <+: content) {want amount : Nat} (hwant : 0 < want) :
    body ++ rawRead content body.length want amount <+: content ∧
      (rawRead content body.length want amount = [] → body = content) := by
  obtain ⟨rest, rfl⟩ := h
  rw [rawRead, List.drop_left]
  refine ⟨(List.prefix_append_right_inj body).mpr (List.take_prefix _ _), fun hnil => ?_⟩
  have hzero : min want (max 1 amount) ≠ 0 := by omega
  rw [List.take_eq_nil_iff] at hnil
  rw [hnil.resolve_left hzero, List.append_nil]

/-- A call goes on knowing what it has to while no system call of it fails. -/
theorem writeStep_settled {a : Reply} (ha : a.fails = false) (hstep : writeStep file encoded d a pc = some (pc', d'))
    {failed : Prop} (h : Settled file failed d encoded pc) (hholds : Holds file d encoded pc) (hreadable : Readable file d)
    (hstable : Stable file d d') : Settled file failed d' encoded pc' := by
  cases pc with
  | entering =>
    simp only [writeStep, ha, Bool.false_eq_true, if_false] at hstep
    cases hstep
    trivial
  | staging =>
    simp only [writeStep, ha, Bool.false_eq_true, if_false, Option.ite_none_right_eq_some] at hstep
    obtain ⟨-, hstep⟩ := hstep
    cases hstep
    trivial
  | writing t written =>
    simp only [writeStep, ha, Bool.false_eq_true, if_false] at hstep
    split at hstep
    · cases hstep
      trivial
    · cases hstep
      trivial
  | linking t =>
    obtain ⟨hnamed, -⟩ := hholds.draft t rfl
    simp only [writeStep, ha, Bool.false_eq_true, if_false, linkDraft, hnamed] at hstep
    cases hfile : d.names file with
    | some i =>
      simp only [hfile] at hstep
      cases hstep
      show (d.names file).isSome = true
      rw [hfile]
      rfl
    | none =>
      simp only [hfile] at hstep
      cases hstep
      show (d.link file t.fd).content? file = some encoded
      rw [Directory.content?, Directory.names_link, if_pos rfl, Option.map_some, Directory.files_link,
        (hholds.drafted t encoded rfl).1]
  | opening t =>
    obtain ⟨i, hi⟩ := Option.isSome_iff_exists.mp h
    have hkind : (d.files i).kind ≠ .symlink := by
      rw [(hreadable i hi).1]
      decide
    simp only [writeStep, ha, Bool.false_eq_true, if_false, openExisting, hi, if_neg hkind] at hstep
    cases hstep
    exact hi
  | stating t fd =>
    have hkind : ¬ (d.files fd).kind ≠ .regular := not_not.mpr (hreadable fd h).1
    simp only [writeStep, ha, Bool.false_eq_true, if_false, if_neg hkind] at hstep
    cases hstep
    exact ⟨h, List.nil_prefix⟩
  | reading t fd body =>
    obtain ⟨hfd, hbody⟩ := h
    have hsize := (hreadable fd hfd).2
    have hwant : 0 < maxMetadataBytes + 1 - body.length := by
      have hlength := hbody.length_le
      omega
    obtain ⟨hahead, hend⟩ := @rawRead_ahead _ _ hbody _ a.amount hwant
    simp only [writeStep, ha, Bool.false_eq_true, if_false] at hstep
    cases hstep
    split
    · exact ⟨hfd, hahead⟩
    · rename_i hdone
      have hwhole : body ++ rawRead (d.files fd).content body.length (maxMetadataBytes + 1 - body.length) a.amount =
          (d.files fd).content := by
        have hlength := hahead.length_le
        have hnil := not_and.mp hdone
        by_cases hdata : rawRead (d.files fd).content body.length (maxMetadataBytes + 1 - body.length) a.amount = []
        · rw [hdata, List.append_nil]
          exact hend hdata
        · have hlong := hnil hdata
          omega
      refine .inl ⟨(d.files fd).content, by rw [Directory.content?, hfd]; rfl, ?_⟩
      rw [hwhole, compareExisting, if_neg (by omega), verdict]
      by_cases heq : (d.files fd).content = encoded
      · rw [if_neg (not_not.mpr heq), if_pos heq]
      · rw [if_pos heq, if_neg heq]
  | securing t =>
    simp only [writeStep, ha, Bool.false_eq_true, if_false] at hstep
    cases hstep
    exact .inl ⟨encoded, h, (if_pos rfl).symm⟩
  | cleaning t published outcome =>
    simp only [writeStep, ha, Bool.false_eq_true, if_false] at hstep
    cases hstep
    have hsettled : Settled file failed (d.unlink t.name) encoded (.cleaning t published outcome) := h.stable hstable
    cases published
    · exact hsettled
    · exact hsettled
  | confirming outcome =>
    simp only [writeStep, ha, Bool.false_eq_true, if_false] at hstep
    cases hstep
    exact h
  | finished outcome => cases hstep

/-! ### How long a call takes -/

/-- The system calls that a call can still make. -/
def remaining (encoded : Bytes) : WritePc → Nat
  | .entering => encoded.length + maxMetadataBytes + 13
  | .staging => encoded.length + maxMetadataBytes + 12
  | .writing _ written => (encoded.length - written) + maxMetadataBytes + 11
  | .linking _ => maxMetadataBytes + 10
  | .opening _ => maxMetadataBytes + 9
  | .stating .. => maxMetadataBytes + 8
  | .reading _ _ body => (maxMetadataBytes + 1 - body.length) + 6
  | .securing _ => 4
  | .cleaning .. => 3
  | .confirming _ => 2
  | .finished _ => 0

theorem writeStep_remaining {a : Reply} (h : writeStep file encoded d a pc = some (pc', d')) :
    remaining encoded pc' < remaining encoded pc := by
  cases pc with
  | entering =>
    cases h
    cases a.fails <;> simp only [remaining, if_true, Bool.false_eq_true, if_false] <;> omega
  | staging =>
    simp only [writeStep] at h
    split at h
    · cases h
      simp only [remaining]
      omega
    · split at h
      · cases h
        simp only [remaining]
        omega
      · cases h
  | writing t written =>
    simp only [writeStep] at h
    split at h
    · cases h
      simp only [remaining]
      omega
    · split at h
      · cases h
        simp only [remaining, List.length_take, List.length_drop]
        omega
      · cases h
        simp only [remaining]
        omega
  | linking t =>
    simp only [writeStep, linkDraft] at h
    split at h
    · cases h
      simp only [remaining]
      omega
    · have h := Option.some.inj h
      split at h
      · cases h
        simp only [remaining]
        omega
      · split at h
        · cases h
          simp only [remaining]
          omega
        · cases h
          simp only [remaining]
          omega
  | opening t =>
    cases h
    unfold openExisting
    repeat' split
    all_goals simp only [remaining]
    all_goals omega
  | stating t fd =>
    cases h
    repeat' split
    all_goals simp only [remaining, List.length_nil]
    all_goals omega
  | reading t fd body =>
    simp only [writeStep] at h
    cases h
    split
    · simp only [remaining]
      omega
    · split
      · rename_i hmore
        have hpos := List.length_pos_iff.mpr hmore.1
        have hless := hmore.2
        simp only [List.length_append] at hless
        simp only [remaining, List.length_append]
        omega
      · simp only [remaining]
        omega
  | securing t =>
    simp only [writeStep] at h
    split at h
    · cases h
      simp only [remaining]
      omega
    · cases h
      simp only [remaining]
      omega
  | cleaning t published outcome =>
    simp only [writeStep] at h
    split at h
    · cases h
      simp only [remaining]
      omega
    · cases h
      cases published <;> simp only [remaining, if_true, Bool.false_eq_true, if_false] <;> omega
  | confirming outcome =>
    cases h
    simp only [remaining]
    omega
  | finished outcome => cases h

/-- `mkstemp` finds a name that is free. -/
theorem exists_free (file : List Char) (hfinite : {name | (d.names name).isSome = true}.Finite) :
    ∃ random, d.names (temporaryName file random) = none := by
  have hinj : Function.Injective fun n : Nat => temporaryName file (List.replicate n 'a') := by
    intro m n heq
    have hlength := congrArg List.length heq
    simp only [temporaryName, List.length_cons, List.length_append, List.length_replicate] at hlength
    omega
  obtain ⟨name, ⟨n, rfl⟩, hfree⟩ := (Set.infinite_range_of_injective hinj).exists_notMem_finite hfinite
  exact ⟨_, Option.not_isSome_iff_eq_none.mp hfree⟩

/-- A call that has not returned goes on, unless a system call fails. -/
theorem writeStep_progress (hfinite : {name | (d.names name).isSome = true}.Finite) (hpc : ∀ outcome, pc ≠ .finished outcome) :
    ∃ a, a.fails = false ∧ (writeStep file encoded d a pc).isSome = true := by
  cases pc with
  | staging =>
    obtain ⟨random, hfree⟩ := exists_free file hfinite
    refine ⟨{random}, rfl, ?_⟩
    simp only [writeStep, hfree, Bool.false_eq_true, if_false, if_true]
    rfl
  | writing t written =>
    refine ⟨{}, rfl, ?_⟩
    simp only [writeStep, Bool.false_eq_true, if_false]
    split <;> rfl
  | finished outcome => exact absurd rfl (hpc outcome)
  | _ => exact ⟨{}, rfl, rfl⟩

end

/-! ### Every run -/

def WriteAct.isStepOf (id : Nat) : WriteAct → Bool
  | .step id' _ => id' == id
  | .start .. => false

/-- What holds of the directory and of the calls after a run. -/
structure Tracked (file : List Char) (s₀ : Writers) (actions : List WriteAct) (s : Writers) : Prop where
  owned : Owned file s
  finite : {name | (s.directory.names name).isSome = true}.Finite
  hidden : s.directory.glob ⊆ insert file s₀.directory.glob
  sized : ∀ id encoded pc, s.calls id = some (encoded, pc) → encoded.length ≤ maxMetadataBytes
  readable : Readable file s.directory
  settled : ∀ id encoded pc, s.calls id = some (encoded, pc) →
    Settled file (∃ a, WriteAct.step id a ∈ actions ∧ a.fails = true) s.directory encoded pc
  unstarted : ∀ id, s.calls id = none → actions.countP (WriteAct.isStepOf id) = 0
  counted : ∀ id encoded pc, s.calls id = some (encoded, pc) →
    actions.countP (WriteAct.isStepOf id) + remaining encoded pc ≤ remaining encoded .entering

theorem Settled.mono {failed failed' : Prop} (hfailed : failed → failed') {d : Directory} {encoded : Bytes} {pc : WritePc}
    (h : Settled file failed d encoded pc) : Settled file failed' d encoded pc := by
  cases pc with
  | cleaning t published outcome => exact h.imp_right fun hknown => ⟨hfailed hknown.1, hknown.2⟩
  | confirming outcome => exact h.imp_right fun hknown => ⟨hfailed hknown.1, hknown.2⟩
  | finished outcome => exact h.imp_right fun hknown => ⟨hfailed hknown.1, hknown.2⟩
  | _ => exact h

theorem Idle.tracked {s₀ : Writers} (h : Idle file s₀) : Tracked file s₀ [] s₀ where
  owned := h.owned
  finite := h.finite
  hidden := Set.subset_insert _ _
  sized id _ _ hcall := by
    rw [h.calls id] at hcall
    cases hcall
  readable := h.existing
  settled id _ _ hcall := by
    rw [h.calls id] at hcall
    cases hcall
  unstarted _ _ := rfl
  counted id _ _ hcall := by
    rw [h.calls id] at hcall
    cases hcall

theorem Tracked.start {s₀ s : Writers} {actions : List WriteAct} (h : Tracked file s₀ actions s) {id : Nat} {encoded : Bytes}
    {s' : Writers} (hstep : writersStep file s (.start id encoded) = some s') (hsize : encoded.length ≤ maxMetadataBytes) :
    Tracked file s₀ (actions ++ [.start id encoded]) s' := by
  have howned := (h.owned.step hstep).1
  simp only [writersStep, Option.ite_none_right_eq_some, Option.some.injEq] at hstep
  obtain ⟨hnone, rfl⟩ := hstep
  have hcases : ∀ {id' encoded' pc}, Function.update s.calls id (some (encoded, .entering)) id' = some (encoded', pc) →
      (id' = id ∧ encoded' = encoded ∧ pc = .entering) ∨ s.calls id' = some (encoded', pc) := by
    intro id' encoded' pc hcall
    rw [Function.update_apply] at hcall
    split at hcall
    · cases hcall
      exact .inl ⟨‹_›, rfl, rfl⟩
    · exact .inr hcall
  have hcount : ∀ id', (actions ++ [WriteAct.start id encoded]).countP (WriteAct.isStepOf id') =
      actions.countP (WriteAct.isStepOf id') := fun id' => by simp [WriteAct.isStepOf]
  refine ⟨howned, h.finite, h.hidden, ?_, h.readable, ?_, ?_, ?_⟩
  · intro id' encoded' pc hcall
    obtain ⟨-, rfl, -⟩ | hcall := hcases hcall
    · exact hsize
    · exact h.sized id' encoded' pc hcall
  · intro id' encoded' pc hcall
    obtain ⟨-, -, rfl⟩ | hcall := hcases hcall
    · trivial
    · refine (h.settled id' encoded' pc hcall).mono ?_
      intro ⟨a, ha, hfails⟩
      exact ⟨a, List.mem_append_left _ ha, hfails⟩
  · intro id' hcall
    simp only [Function.update_apply] at hcall
    split at hcall
    · cases hcall
    · rw [hcount]
      exact h.unstarted id' hcall
  · intro id' encoded' pc hcall
    rw [hcount]
    obtain ⟨rfl, rfl, rfl⟩ | hcall := hcases hcall
    · rw [h.unstarted id' hnone]
      omega
    · exact h.counted id' encoded' pc hcall

theorem Tracked.step {s₀ s : Writers} {actions : List WriteAct} (h : Tracked file s₀ actions s) {id : Nat} {a : Reply}
    {s' : Writers} (hstep : writersStep file s (.step id a) = some s') :
    Tracked file s₀ (actions ++ [.step id a]) s' := by
  obtain ⟨howned, hstable⟩ := h.owned.step hstep
  obtain ⟨encoded, pc, pc', d', hcall, hwrite, rfl⟩ := writersStep_eq_some hstep
  have heffect := writeStep_effect hwrite
  have hholds := h.owned.holds id encoded pc hcall
  obtain ⟨added, hadded, hnames⟩ := heffect.names
  have hcases : ∀ {id' encoded' q}, Function.update s.calls id (some (encoded, pc')) id' = some (encoded', q) →
      (id' = id ∧ encoded' = encoded ∧ q = pc') ∨ (id' ≠ id ∧ s.calls id' = some (encoded', q)) := by
    intro id' encoded' q hcall'
    rw [Function.update_apply] at hcall'
    split at hcall'
    · cases hcall'
      exact .inl ⟨‹_›, rfl, rfl⟩
    · exact .inr ⟨‹_›, hcall'⟩
  have hmore : ∀ id', (∃ a', WriteAct.step id' a' ∈ actions ∧ a'.fails = true) →
      ∃ a', WriteAct.step id' a' ∈ actions ++ [.step id a] ∧ a'.fails = true := by
    intro id' ⟨a', ha', hfails⟩
    exact ⟨a', List.mem_append_left _ ha', hfails⟩
  refine ⟨howned, ?_, ?_, ?_, heffect.readable h.owned.used hholds (h.sized id encoded pc hcall) h.readable, ?_, ?_, ?_⟩
  · refine (h.finite.insert added).subset fun name hname => ?_
    exact hnames name hname
  · intro name ⟨hname, hjson⟩
    obtain rfl | hname := hnames name hname
    · obtain rfl | htemporary := hadded
      · exact Set.mem_insert _ _
      · rw [htemporary] at hjson
        cases hjson
    · exact h.hidden ⟨hname, hjson⟩
  · intro id' encoded' q hcall'
    obtain ⟨-, rfl, -⟩ | ⟨-, hcall'⟩ := hcases hcall'
    · exact h.sized id _ pc hcall
    · exact h.sized id' encoded' q hcall'
  · intro id' encoded' q hcall'
    obtain ⟨rfl, rfl, rfl⟩ | ⟨-, hcall'⟩ := hcases hcall'
    · cases hfails : a.fails with
      | true => exact writeStep_fails hfails hwrite ⟨a, List.mem_append_right _ (List.mem_singleton_self _), hfails⟩
      | false =>
        have hsettled := (h.settled _ _ pc hcall).mono (hmore _)
        exact writeStep_settled hfails hwrite hsettled hholds h.readable hstable
    · exact ((h.settled id' encoded' q hcall').mono (hmore id')).stable hstable
  · intro id' hcall'
    simp only [Function.update_apply] at hcall'
    split at hcall'
    · cases hcall'
    · rename_i hne
      have hother : (id == id') = false := by simpa using Ne.symm hne
      simp [List.countP_append, WriteAct.isStepOf, hother, h.unstarted id' hcall']
  · intro id' encoded' q hcall'
    obtain ⟨rfl, rfl, rfl⟩ | ⟨hne, hcall'⟩ := hcases hcall'
    · have hcounted := h.counted _ _ pc hcall
      have hless := writeStep_remaining hwrite
      have hone : (actions ++ [WriteAct.step id' a]).countP (WriteAct.isStepOf id') =
          actions.countP (WriteAct.isStepOf id') + 1 := by simp [WriteAct.isStepOf]
      rw [hone]
      omega
    · have hother : (id == id') = false := by simpa using Ne.symm hne
      have hsame : (actions ++ [WriteAct.step id a]).countP (WriteAct.isStepOf id') =
          actions.countP (WriteAct.isStepOf id') := by simp [WriteAct.isStepOf, hother]
      rw [hsame]
      exact h.counted id' encoded' q hcall'

/-- **The tracking rule**: calls within the limit keep all of it, in whatever order they take their steps. -/
theorem run_tracked {s₀ s : Writers} {actions : List WriteAct} (hs : Idle file s₀)
    (hsizes : ∀ id encoded, WriteAct.start id encoded ∈ actions → encoded.length ≤ maxMetadataBytes)
    (hr : (writers file).run s₀ actions = some s) : Tracked file s₀ actions s := by
  have hhistory : (∀ id encoded, WriteAct.start id encoded ∈ actions → encoded.length ≤ maxMetadataBytes) →
      Tracked file s₀ actions s := by
    refine Machine.run_history (I := fun actions s =>
      (∀ id encoded, WriteAct.start id encoded ∈ actions → encoded.length ≤ maxMetadataBytes) → Tracked file s₀ actions s)
      (fun _ => hs.tracked) ?_ hr
    intro actions s action s' _ ih hstep hsizes
    have hbefore := ih fun id encoded hmem => hsizes id encoded (List.mem_append_left _ hmem)
    cases action with
    | start id encoded => exact hbefore.start hstep (hsizes id encoded (List.mem_append_right _ (List.mem_singleton_self _)))
    | step id a => exact hbefore.step hstep
  exact hhistory hsizes

theorem run_owned_writers {s₀ s : Writers} {actions : List WriteAct} (hs : Owned file s₀)
    (hr : (writers file).run s₀ actions = some s) : Owned file s ∧ Stable file s₀.directory s.directory := by
  refine Machine.run_invariant_of_step (I := fun s => Owned file s ∧ Stable file s₀.directory s.directory) ?_
    ⟨hs, fun i hi => ⟨hi, rfl⟩⟩ hr
  intro s action s' ⟨howned, hstable⟩ hstep
  obtain ⟨howned', hstable'⟩ := howned.step hstep
  refine ⟨howned', fun i hi => ?_⟩
  obtain ⟨hi', hsame⟩ := hstable i hi
  obtain ⟨hi'', hsame'⟩ := hstable' i hi'
  exact ⟨hi'', hsame'.trans hsame⟩

end

end Fetech.Snapshots
