import Fetech.WorkerAudit

/-! What the audit hook lets through, in any order of events and calls of the guard (`hook_confines`).

Files are read, and directories listed, under the reviewed roots only. Until the window is closed,
files are written, directories made, links set and entries removed under the scratch directory, and
reviewed native libraries loaded; later, entries of the scratch directory are removed while a call
that cleans it up is under way, and nothing else of a denied kind happens. -/
namespace Fetech.WorkerAudit
open Lib Machine

/-! ### One event -/

/-- The argument names a path that lies under a root. -/
def Within (e : Event) (argument : Argument) (root : RealPath) : Prop :=
  ∃ path real, argument.fspath = some path ∧ e.normalizePath path = some real ∧ root <+: real

theorem within_of_absolute {e : Event} {argument : Argument} {root : RealPath}
    (h : absolutePathIsWithin e argument root = true) : Within e argument root := by
  obtain ⟨path, hpath, hwithin⟩ := (Option.any_eq_true _ _).mp h
  rw [Bool.and_eq_true] at hwithin
  obtain ⟨real, hreal, hroot⟩ := (Option.any_eq_true _ _).mp hwithin.2
  exact ⟨path, real, hpath, hreal, pathIsWithin_iff.mp hroot⟩

/-- What an event is about lies under a root. -/
def TargetWithin (e : Event) (root : RealPath) : Prop := ∃ argument, e.arguments.head? = some argument ∧ Within e argument root

/-- It lies under a root that may be read. -/
def Readable (h : Hook) (e : Event) : Prop := ∃ root ∈ h.readRoots, TargetWithin e root

/-- The arguments of an event that changes the file system lie under a root. -/
def Inside (e : Event) (root : RealPath) : Prop :=
  ∃ first rest, e.arguments = first :: rest ∧ Within e first root ∧
    (e.name = "os.link" → ∃ second, rest.head? = some second ∧ Within e second root)

theorem inside_of_scratchEvent {e : Event} {root : RealPath} {allowed : List String}
    (h : privateScratchEventAllowed e root allowed = true) : e.name ∈ allowed ∧ Inside e root := by
  rw [privateScratchEventAllowed, Bool.and_eq_true, List.contains_iff_mem] at h
  refine ⟨h.1, ?_⟩
  cases harguments : e.arguments with
  | nil =>
    rw [harguments] at h
    exact absurd h.2 Bool.false_ne_true
  | cons first rest =>
    rw [harguments] at h
    obtain ⟨-, hinside⟩ := h
    dsimp only at hinside
    split at hinside
    · obtain ⟨second, hsecond, hboth⟩ := (Option.any_eq_true _ _).mp hinside
      rw [Bool.and_eq_true] at hboth
      exact ⟨first, rest, harguments, within_of_absolute hboth.1, fun _ => ⟨second, hsecond, within_of_absolute hboth.2⟩⟩
    · rename_i hname
      exact ⟨first, rest, harguments, within_of_absolute hinside, fun hlink => absurd hlink hname⟩

section
variable {h : Hook} {e : Event}

theorem readable_of_target {path : Text} {real : RealPath} (hpath : e.target = some path)
    (hreal : e.normalizePath path = some real) (hroot : h.readable real = true) : Readable h e := by
  obtain ⟨argument, hargument, hfspath⟩ := Option.bind_eq_some_iff.mp hpath
  obtain ⟨root, hmem, hwithin⟩ := List.any_eq_true.mp hroot
  exact ⟨root, hmem, argument, hargument, path, real, hfspath, hreal, pathIsWithin_iff.mp hwithin⟩

/-- What is let through without a window being open. -/
theorem enforce_cases (hpasses : h.enforceWorkerEvent e = true) :
    (e.name = "open" → h.writeRequested e = false ∧ Readable h e) ∧
    (e.name = "os.listdir" ∨ e.name = "os.scandir" → Readable h e) ∧ isDenied e.name = false := by
  unfold Hook.enforceWorkerEvent at hpasses
  split at hpasses
  · rename_i hname
    obtain ⟨path, hpath, hopen⟩ := (Option.any_eq_true _ _).mp hpasses
    obtain ⟨real, hreal, hboth⟩ := (Option.any_eq_true _ _).mp hopen
    rw [Bool.and_eq_true, Bool.not_eq_true'] at hboth
    refine ⟨fun _ => ⟨hboth.1, readable_of_target hpath hreal hboth.2⟩, fun hlisting => ?_, by rw [hname]; decide⟩
    rw [hname] at hlisting
    exact absurd hlisting (by decide)
  split at hpasses
  · rename_i hopen hlisting
    obtain ⟨path, hpath, hboth⟩ := (Option.any_eq_true _ _).mp hpasses
    rw [Bool.and_eq_true] at hboth
    obtain ⟨real, hreal, hroot⟩ := (Option.any_eq_true _ _).mp hboth.2
    refine ⟨fun hname => absurd hname hopen, fun _ => readable_of_target hpath hreal hroot, ?_⟩
    simp only [List.contains_iff_mem, List.mem_cons, List.not_mem_nil, or_false] at hlisting
    obtain hname | hname := hlisting
    · rw [hname]
      decide
    · rw [hname]
      decide
  · rename_i hopen hlisting
    refine ⟨fun hname => absurd hname hopen, fun hname => ?_, by simpa using hpasses⟩
    simp only [List.contains_iff_mem, List.mem_cons, List.not_mem_nil, or_false] at hlisting
    exact absurd hname hlisting

/-- A library that is loaded by its path is a reviewed one. -/
theorem readable_of_native (hname : e.name = "ctypes.dlopen") (hallowed : h.reviewedNativeEventAllowed e = true) :
    e.arguments = [.none] ∨ Readable h e := by
  rw [Hook.reviewedNativeEventAllowed, if_pos hname] at hallowed
  cases harguments : e.arguments with
  | nil =>
    rw [harguments] at hallowed
    exact absurd hallowed Bool.false_ne_true
  | cons library rest =>
    rw [harguments] at hallowed
    cases rest with
    | cons second rest => cases library <;> exact absurd hallowed Bool.false_ne_true
    | nil =>
      by_cases hlibrary : library = .none
      · exact .inl (by rw [hlibrary])
      · have hany : library.fspath.any (h.reviewedAbsolutePath e) = true := by
          cases library <;> first | exact hallowed | exact absurd rfl hlibrary
        obtain ⟨path, hpath, hreviewed⟩ := (Option.any_eq_true _ _).mp hany
        rw [Hook.reviewedAbsolutePath, Bool.and_eq_true] at hreviewed
        obtain ⟨real, hreal, hroot⟩ := (Option.any_eq_true _ _).mp hreviewed.2
        exact .inr (readable_of_target (by rw [Event.target, harguments]; exact hpath) hreal hroot)

/-- A native event that was reviewed. -/
def Reviewed (h : Hook) (e : Event) : Prop :=
  e.name ∈ reviewedNativeEvents ∧ (e.name = "ctypes.dlopen" → e.arguments = [.none] ∨ Readable h e)

/-- What is let through while the window is open. -/
theorem initialization_cases {root : Option RealPath} (hpasses : h.reviewedInitializationEventAllowed e root = true) :
    Reviewed h e ∨ ∃ r, root = some r ∧
      ((e.name = "open" ∧ h.writeRequested e = true ∧ TargetWithin e r) ∨
        (e.name ∈ initializationScratchEvents ∧ Inside e r)) := by
  unfold Hook.reviewedInitializationEventAllowed at hpasses
  split at hpasses
  · rename_i hnative
    exact .inl ⟨List.contains_iff_mem.mp hnative, fun hname => readable_of_native hname hpasses⟩
  · obtain ⟨r, hr, hallowed⟩ := (Option.any_eq_true _ _).mp hpasses
    refine .inr ⟨r, hr, ?_⟩
    split at hallowed
    · rename_i hname
      obtain ⟨argument, hargument, hboth⟩ := (Option.any_eq_true _ _).mp hallowed
      rw [Bool.and_eq_true] at hboth
      exact .inl ⟨hname, hboth.1, argument, hargument, within_of_absolute hboth.2⟩
    · exact .inr (inside_of_scratchEvent hallowed)

end

/-! ### Every order of events and calls -/

/-- The window has not been closed. -/
def Untouched (actions : List Action) : Prop := ∀ a ∈ actions, a ≠ .sealNativeInitialization ∧ a ≠ .beginCleanup

/-- The scratch directory has not been removed. -/
def Kept (actions : List Action) : Prop := .endCleanup true ∉ actions

/-- Since the last call that cleans up began, none has ended. -/
def CleaningUp (actions : List Action) : Prop :=
  ∃ before after, actions = before ++ .beginCleanup :: after ∧ ∀ removed, .endCleanup removed ∉ after

/-- What a state says of the actions that led to it. -/
structure Tracked (scratch : Option RealPath) (actions : List Action) (w : Worker) : Prop where
  window : w.state.nativeInitializationOpen = true → Untouched actions
  root : ∀ r, w.state.privateScratchRoot = some r → scratch = some r ∧ Kept actions
  cleanup : w.state.cleanupOpen = true → CleaningUp actions

theorem CleaningUp.concat {actions : List Action} (h : CleaningUp actions) {a : Action}
    (ha : ∀ removed, a ≠ .endCleanup removed) : CleaningUp (actions ++ [a]) := by
  obtain ⟨before, after, rfl, hafter⟩ := h
  refine ⟨before, after ++ [a], by simp, fun removed hmem => ?_⟩
  obtain hmem | hmem := List.mem_append.mp hmem
  · exact hafter removed hmem
  · exact ha removed (List.mem_singleton.mp hmem).symm

theorem Kept.concat {actions : List Action} (h : Kept actions) {a : Action} (ha : a ≠ .endCleanup true) :
    Kept (actions ++ [a]) := by
  intro hmem
  obtain hmem | hmem := List.mem_append.mp hmem
  · exact h hmem
  · exact ha (List.mem_singleton.mp hmem).symm

theorem Untouched.concat {actions : List Action} (h : Untouched actions) {a : Action}
    (ha : a ≠ .sealNativeInitialization ∧ a ≠ .beginCleanup) : Untouched (actions ++ [a]) :=
  List.forall_mem_append.mpr ⟨h, List.forall_mem_singleton.mpr ha⟩

theorem Tracked.step {scratch : Option RealPath} {actions : List Action} {w w' : Worker} {a : Action}
    (h : Tracked scratch actions w) (hstep : machine.step w a = some w') : Tracked scratch (actions ++ [a]) w' := by
  cases a with
  | event e =>
    cases hstep
    refine ⟨fun hw => (h.window hw).concat ⟨fun heq => ?_, fun heq => ?_⟩, fun r hr => ?_, fun hc => ?_⟩
    · cases heq
    · cases heq
    · exact ⟨(h.root r hr).1, (h.root r hr).2.concat fun heq => by cases heq⟩
    · exact (h.cleanup hc).concat fun removed heq => by cases heq
  | sealNativeInitialization =>
    cases hstep
    refine ⟨fun hw => absurd hw Bool.false_ne_true, fun r hr => ?_, fun hc => ?_⟩
    · exact ⟨(h.root r hr).1, (h.root r hr).2.concat fun heq => by cases heq⟩
    · exact (h.cleanup hc).concat fun removed heq => by cases heq
  | beginCleanup =>
    have hkept : ∀ r, w.state.privateScratchRoot = some r → scratch = some r ∧ Kept (actions ++ [.beginCleanup]) :=
      fun r hr => ⟨(h.root r hr).1, (h.root r hr).2.concat fun heq => by cases heq⟩
    simp only [machine, WorkerAudit.step] at hstep
    split at hstep
    · cases hstep
      exact ⟨fun hw => absurd hw Bool.false_ne_true, hkept,
        fun hc => (h.cleanup hc).concat fun removed heq => by cases heq⟩
    · cases hstep
      exact ⟨fun hw => absurd hw Bool.false_ne_true, hkept,
        fun _ => ⟨actions, [], rfl, fun _ => List.not_mem_nil⟩⟩
  | endCleanup removed =>
    have hwindow : w.state.nativeInitializationOpen = true → Untouched (actions ++ [.endCleanup removed]) :=
      fun hw => (h.window hw).concat ⟨Action.noConfusion, Action.noConfusion⟩
    simp only [machine, WorkerAudit.step] at hstep
    split at hstep
    · cases hstep
    split at hstep
    · cases hstep
      exact ⟨hwindow, fun r hr => absurd hr.symm (Option.some_ne_none r), fun hc => absurd hc Bool.false_ne_true⟩
    · rename_i hremoved
      cases hstep
      refine ⟨hwindow, fun r hr => ⟨(h.root r hr).1, (h.root r hr).2.concat fun heq => ?_⟩,
        fun hc => absurd hc Bool.false_ne_true⟩
      cases heq
      exact hremoved rfl

/-- What may happen after some actions. -/
structure Permitted (h : Hook) (scratch : Option RealPath) (actions : List Action) (e : Event) : Prop where
  read : e.name = "open" → h.writeRequested e = false → Readable h e
  listing : e.name = "os.listdir" ∨ e.name = "os.scandir" → Readable h e
  write : e.name = "open" → h.writeRequested e = true →
    Untouched actions ∧ ∃ root, scratch = some root ∧ TargetWithin e root
  denied : isDenied e.name = true →
    (Untouched actions ∧
      (Reviewed h e ∨ ∃ root, scratch = some root ∧ e.name ∈ initializationScratchEvents ∧ Inside e root)) ∨
    (CleaningUp actions ∧ Kept actions ∧
      ∃ root, scratch = some root ∧ e.name ∈ cleanupScratchEvents ∧ Inside e root)

/-- An event of neither kind of access. -/
theorem permitted_of_denied {h : Hook} {scratch : Option RealPath} {actions : List Action} {e : Event}
    {names : List String} (hmem : e.name ∈ names)
    (hnames : ∀ name ∈ names, name ≠ "open" ∧ name ≠ "os.listdir" ∧ name ≠ "os.scandir")
    (hdenied : (Untouched actions ∧
        (Reviewed h e ∨ ∃ root, scratch = some root ∧ e.name ∈ initializationScratchEvents ∧ Inside e root)) ∨
      (CleaningUp actions ∧ Kept actions ∧
        ∃ root, scratch = some root ∧ e.name ∈ cleanupScratchEvents ∧ Inside e root)) :
    Permitted h scratch actions e where
  read hopen := absurd hopen (hnames _ hmem).1
  listing hlisting := absurd hlisting (not_or.mpr (hnames _ hmem).2)
  write hopen := absurd hopen (hnames _ hmem).1
  denied _ := hdenied

/-- **The guard keeps its word in every order of events and calls**: whatever the hook lets through after
some actions, a file that is read or a directory that is listed lies under a root that was reviewed; a
file is written only before the window was closed and under the scratch directory; any other event of a
denied kind is then a reviewed native one or of the scratch directory, and later a removal under the
scratch directory during its cleanup. -/
theorem hook_confines {readRoots : List RealPath} {writeOpenFlags : Int} {allow : Bool} {scratch : Option RealPath}
    {h : Hook} {s : State} (hinstall : install readRoots writeOpenFlags allow scratch = some (h, s))
    {actions : List Action} {w : Worker} (hrun : machine.run {state := s} actions = some w)
    {e : Event} (hpasses : h.passes w.state e = true) : Permitted h scratch actions e := by
  have hstart : s.privateScratchRoot = scratch ∧ s.cleanupOpen = false := by
    rw [install] at hinstall
    split at hinstall
    · cases hinstall
    · cases hinstall
      exact ⟨rfl, rfl⟩
  have htracked : Tracked scratch actions w := by
    apply Machine.run_history (I := Tracked scratch) _ _ hrun
    · refine ⟨fun _ => List.forall_mem_nil _, fun r hr => ⟨hstart.1.symm.trans hr, List.not_mem_nil⟩, fun hc => ?_⟩
      rw [hstart.2] at hc
      exact absurd hc Bool.false_ne_true
    · intro actions s a s' _ htracked hstep
      exact htracked.step hstep
  rw [Hook.passes, Bool.or_eq_true, Bool.or_eq_true, Bool.and_eq_true, Bool.and_eq_true] at hpasses
  obtain (hwindow | hcleanup) | henforce := hpasses
  · have huntouched : Untouched actions := htracked.window hwindow.1
    obtain hnative | ⟨root, hroot, hwrite | hscratch⟩ := initialization_cases hwindow.2
    · exact permitted_of_denied hnative.1 (by decide) (.inl ⟨huntouched, .inl hnative⟩)
    · obtain ⟨hname, hwrites, hwithin⟩ := hwrite
      refine ⟨fun _ hreads => ?_, fun hlisting => ?_, fun _ _ => ⟨huntouched, root, (htracked.root root hroot).1, hwithin⟩,
        fun hdenied => ?_⟩
      · rw [hwrites] at hreads
        exact absurd hreads.symm Bool.false_ne_true
      · rw [hname] at hlisting
        exact absurd hlisting (by decide)
      · rw [hname] at hdenied
        exact absurd hdenied (by decide)
    · exact permitted_of_denied hscratch.1 (by decide)
        (.inl ⟨huntouched, .inr ⟨root, (htracked.root root hroot).1, hscratch⟩⟩)
  · obtain ⟨root, hroot, hallowed⟩ := (Option.any_eq_true _ _).mp hcleanup.2
    have hinside := inside_of_scratchEvent hallowed
    exact permitted_of_denied hinside.1 (by decide) (.inr ⟨htracked.cleanup hcleanup.1, (htracked.root root hroot).2, root,
      (htracked.root root hroot).1, hinside⟩)
  · obtain ⟨hopen, hlisting, hdenied⟩ := enforce_cases henforce
    refine ⟨fun hname _ => (hopen hname).2, hlisting, fun hname hwrites => ?_, fun hyes => ?_⟩
    · rw [(hopen hname).1] at hwrites
      exact absurd hwrites Bool.false_ne_true
    · rw [hdenied] at hyes
      exact absurd hyes Bool.false_ne_true

/-- The flags of Linux. -/
def linuxFlags : Int := 0x410643

/-- A file of the scratch directory is written during initialisation and removed during the cleanup. -/
def scratchWrite : Event where
  name := "open"
  arguments := [.str (Text.ofString "/w/a"), .str (Text.ofString "w"), .int 0x80241]
  realpath path := some ((path.splitOn slash).drop 1)

def removal : Event where
  name := "os.remove"
  arguments := [.path (Text.ofString "/w/a"), .int (-1)]
  realpath path := some ((path.splitOn slash).drop 1)

theorem hook_confines_removal :
    Permitted {readRoots := [[Text.ofString "lib"], [Text.ofString "w"]], writeOpenFlags := linuxFlags}
      (some [Text.ofString "w"]) [.event scratchWrite, .sealNativeInitialization, .beginCleanup] removal :=
  hook_confines (show install [[Text.ofString "lib"]] linuxFlags true (some [Text.ofString "w"]) = some (_, _) from rfl)
    (show machine.run _ [.event scratchWrite, .sealNativeInitialization, .beginCleanup] = some _ from rfl) (by decide +kernel)

end Fetech.WorkerAudit
