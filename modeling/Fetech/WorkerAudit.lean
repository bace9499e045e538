import Mathlib.Data.Int.Bitwise
import Fetech.Lib.PosixPath
import Fetech.Lib.Runs

/-! The audit hook of worker processes (`fetech/worker_audit.py`).

The interpreter calls the hook before what it is about to do, with an event's name and arguments,
and does it unless the hook raises. Links and the working directory decide what a path names, so an
event comes with how paths are resolved at that moment; a resolved path is its parts below the root.
The guard closes the window for native initialization and cleans the scratch directory up; its calls
and the events come in any order. -/
namespace Fetech.WorkerAudit
open Lib

/-! ### Paths -/

/-- What `realpath` gives: the parts of an absolute path without links. -/
abbrev RealPath := List Text

/-- `os.path.commonpath` of two real paths. -/
def commonpath : RealPath → RealPath → RealPath
  | a :: p, b :: q => if a = b then a :: commonpath p q else []
  | _, _ => []

/-- `_path_is_within` -/
def pathIsWithin (candidate root : RealPath) : Bool := commonpath candidate root == root

theorem pathIsWithin_iff {candidate root : RealPath} : pathIsWithin candidate root = true ↔ root <+: candidate := by
  rw [pathIsWithin, beq_iff_eq]
  induction candidate generalizing root with
  | nil => cases root <;> simp [commonpath]
  | cons a p ih =>
    cases root with
    | nil => simp [commonpath]
    | cons b q =>
      rw [commonpath, List.cons_prefix_cons]
      split
      · rename_i heq
        simp [heq, ih]
      · rename_i hne
        simp [eq_comm, hne]

/-! ### Events -/

/-- The `_name` of an object. -/
inductive NameAttribute where
  | missing
  | path (s : Text)
  | other

inductive Argument where
  | none
  | bool (b : Bool)
  | int (n : Int)
  | str (s : Text)
  /-- Bytes or a `PathLike`, decoded. -/
  | path (s : Text)
  | object (name : NameAttribute)

namespace Argument

/-- The text of a `str`, `bytes` or `PathLike`. -/
def fspath : Argument → Option Text
  | str s => some s
  | path s => some s
  | _ => Option.none

/-- Of an `isinstance(argument, int)`. -/
def toInt : Argument → Option Int
  | bool b => some (if b then 1 else 0)
  | int n => some n
  | _ => Option.none

end Argument

structure Event where
  name : String
  arguments : List Argument
  /-- `realpath(abspath(path))` now; `none` is what they raise. -/
  realpath : Text → Option RealPath

namespace Event
variable (e : Event)

/-- `_normalize_path`; `none` is what it raises. -/
def normalizePath (path : Text) : Option RealPath := if path.contains 0 then none else e.realpath path

/-- The first argument, if it is a path. -/
def target : Option Text := e.arguments.head?.bind Argument.fspath

end Event

def isabs (path : Text) : Bool := path.head? == some slash

def deniedExactEvents : List String :=
  ["mmap.__new__", "os.chdir", "os.chmod", "os.chown", "os.fchdir", "os.fork", "os.forkpty", "os.kill", "os.killpg",
    "os.link", "os.mkdir", "os.remove", "os.rename", "os.rmdir", "os.symlink", "os.system", "os.truncate", "os.utime",
    "pty.spawn", "resource.prlimit", "resource.setrlimit"]

def deniedEventPrefixes : List String :=
  ["ctypes.", "glob.", "os.exec", "os.posix_spawn", "os.spawn", "pathlib.Path.glob", "shutil.", "socket.", "subprocess."]

def reviewedNativeEvents : List String := ["ctypes.dlopen", "ctypes.dlsym", "ctypes.string_at"]

def initializationScratchEvents : List String :=
  ["os.link", "os.mkdir", "os.remove", "os.rmdir", "os.utime", "shutil.rmtree"]

def cleanupScratchEvents : List String := ["os.remove", "os.rmdir"]

/-- An event of a kind that is denied unless it was reviewed. -/
def isDenied (name : String) : Bool :=
  deniedExactEvents.contains name || deniedEventPrefixes.any fun start => start.toList.isPrefixOf name.toList

/-- `_absolute_path_is_within` -/
def absolutePathIsWithin (e : Event) (argument : Argument) (root : RealPath) : Bool :=
  argument.fspath.any fun path => isabs path && (e.normalizePath path).any (pathIsWithin · root)

/-- A letter, a digit or an underscore. -/
def isSymbol (c : CodePoint) : Bool :=
  (0x30 ≤ c.val && c.val ≤ 0x39) || (0x41 ≤ c.val && c.val ≤ 0x5a) || (0x61 ≤ c.val && c.val ≤ 0x7a) || c.val == 0x5f

/-- `_private_scratch_event_allowed` -/
def privateScratchEventAllowed (e : Event) (root : RealPath) (allowedEvents : List String) : Bool :=
  allowedEvents.contains e.name &&
    match e.arguments with
    | [] => false
    | first :: rest =>
      if e.name = "os.link" then
        rest.head?.any fun second => absolutePathIsWithin e first root && absolutePathIsWithin e second root
      else absolutePathIsWithin e first root

/-! ### The hook -/

/-- What the hook closes over, besides the state. -/
structure Hook where
  readRoots : List RealPath
  /-- `_WRITE_OPEN_FLAGS` of the platform. -/
  writeOpenFlags : Int

namespace Hook
variable (h : Hook)

def readable (path : RealPath) : Bool := h.readRoots.any (pathIsWithin path)

/-- `_reviewed_absolute_path`, of a text. -/
def reviewedAbsolutePath (e : Event) (path : Text) : Bool := isabs path && (e.normalizePath path).any h.readable

/-- `_reviewed_native_event_allowed` -/
def reviewedNativeEventAllowed (e : Event) : Bool :=
  if e.name = "ctypes.dlopen" then
    match e.arguments with
    | [.none] => true
    | [library] => library.fspath.any (h.reviewedAbsolutePath e)
    | _ => false
  else if e.name = "ctypes.dlsym" then
    match e.arguments with
    | [handle, .str symbol] =>
      1 ≤ symbol.length && symbol.length ≤ 256 && symbol.all isSymbol &&
        match handle with
        | .object (.path name) => h.reviewedAbsolutePath e name
        | .object .other => false
        | _ => true
    | _ => false
  else if e.name = "ctypes.string_at" then
    match e.arguments with
    | [.int address, .int size] => 0 < address && size == -1
    | _ => false
  else false

/-- Whether an `open` asks to write. -/
def writeRequested (e : Event) : Bool :=
  (match e.arguments[1]? with
    | some (Argument.str mode) => mode.any (Text.ofString "wax+").contains
    | _ => false) ||
  ((e.arguments[2]?).bind Argument.toInt).any fun flags => Int.land flags h.writeOpenFlags != 0

/-- `_private_scratch_write_allowed` -/
def privateScratchWriteAllowed (e : Event) (root : RealPath) : Bool :=
  e.arguments.head?.any fun argument => h.writeRequested e && absolutePathIsWithin e argument root

/-- `_reviewed_initialization_event_allowed` -/
def reviewedInitializationEventAllowed (e : Event) (root : Option RealPath) : Bool :=
  if reviewedNativeEvents.contains e.name then h.reviewedNativeEventAllowed e
  else root.any fun root =>
    if e.name = "open" then h.privateScratchWriteAllowed e root
    else privateScratchEventAllowed e root initializationScratchEvents

/-- `_enforce_open` -/
def enforceOpen (e : Event) : Bool :=
  e.target.any fun path => (e.normalizePath path).any fun candidate => !h.writeRequested e && h.readable candidate

/-- `_enforce_directory_listing` -/
def enforceDirectoryListing (e : Event) : Bool :=
  e.target.any fun path => !path.isEmpty && (e.normalizePath path).any h.readable

/-- `_enforce_worker_event`, as a yes or no. -/
def enforceWorkerEvent (e : Event) : Bool :=
  if e.name = "open" then h.enforceOpen e
  else if ["os.listdir", "os.scandir"].contains e.name then h.enforceDirectoryListing e
  else !isDenied e.name

end Hook

/-- `_WorkerAuditState` -/
structure State where
  nativeInitializationOpen : Bool
  privateScratchRoot : Option RealPath
  cleanupOpen : Bool := false
  cleaned : Bool := false
  deriving DecidableEq

/-- `audit_hook`: whether the event may happen. -/
def Hook.passes (h : Hook) (s : State) (e : Event) : Bool :=
  (s.nativeInitializationOpen && h.reviewedInitializationEventAllowed e s.privateScratchRoot) ||
  (s.cleanupOpen && s.privateScratchRoot.any fun root => privateScratchEventAllowed e root cleanupScratchEvents) ||
  h.enforceWorkerEvent e

/-- `install_worker_audit_hook`, of a scratch directory that was validated; `readRoots` are the
interpreter's, the package's and the additional ones. -/
def install (readRoots : List RealPath) (writeOpenFlags : Int) (allowReviewedNativeInitialization : Bool)
    (scratchRoot : Option RealPath) : Option (Hook × State) :=
  if allowReviewedNativeInitialization != scratchRoot.isSome then none
  else some ({readRoots := readRoots ++ scratchRoot.toList, writeOpenFlags},
    {nativeInitializationOpen := allowReviewedNativeInitialization, privateScratchRoot := scratchRoot})

/-! ### The guard -/

/-- The state and the calls of `cleanup_private_scratch` that are removing the directory. -/
structure Worker where
  state : State
  cleaning : Nat := 0
  deriving DecidableEq

inductive Action where
  /-- `seal_native_initialization` -/
  | sealNativeInitialization
  /-- `cleanup_private_scratch`, up to the removal. -/
  | beginCleanup
  /-- Its end, the directory removed or an exception on its way. -/
  | endCleanup (removed : Bool)
  | event (e : Event)

def sealed (s : State) : State := {s with nativeInitializationOpen := false}

def step (w : Worker) : Action → Option Worker
  | .sealNativeInitialization => some {w with state := sealed w.state}
  | .beginCleanup =>
    if w.state.cleaned || w.state.privateScratchRoot.isNone then some {w with state := sealed w.state}
    else some {state := {sealed w.state with cleanupOpen := true}, cleaning := w.cleaning + 1}
  | .endCleanup removed =>
    if w.cleaning = 0 then none
    else if removed then
      some { state := {w.state with cleaned := true, privateScratchRoot := none, cleanupOpen := false}
             cleaning := w.cleaning - 1 }
    else some {state := {w.state with cleanupOpen := false}, cleaning := w.cleaning - 1}
  | .event _ => some w

def machine : Machine Worker Action where
  step := step

end Fetech.WorkerAudit
