import Fetech.Lib.Runs
import Mathlib.Logic.Function.Basic

/-! The content-addressed store, `FileSystemCAS`, on a file system that others touch.

A system call is one step and anything may happen between two of them: calls of
`put` and `get` run side by side, and from outside files are deleted, truncated,
overwritten, or replaced by other files, links or directories. A file is a *node*;
paths name nodes, and a descriptor keeps its node whatever happens to the path.
What the system chooses (whether a call fails, how much one read or write moves,
the random suffix of `mkstemp`, the inode number of a new file) comes with the
step as its `Answer`. The directories between the root and the files stay. -/
namespace Fetech.Storage

abbrev Bytes := List UInt8

/-! ### Digests -/

/-- `_path` accepts 64 lower-case hexadecimal digits. -/
def isDigest (digest : String) : Bool :=
  digest.toList.length == 64 && digest.toList.all fun ch => "0123456789abcdef".toList.contains ch

/-- SHA-256; `hexdigest` has the form `_path` asks for. -/
structure Hash where
  hexdigest : Bytes → String
  isDigest_hexdigest : ∀ body, isDigest (hexdigest body) = true

/-! ### Files -/

/-- `S_ISREG`, and the kinds `open` and `link` treat differently. -/
inductive Kind
  | regular | directory | symlink | special
  deriving DecidableEq, Repr

structure Node where
  kind : Kind
  /-- `(st_dev, st_ino)`; a number may be given again. -/
  inode : Nat × Nat
  content : Bytes
  deriving DecidableEq

inductive Path
  /-- `root / digest[:2] / digest[2:4] / digest` -/
  | digest (digest : String)
  /-- `.write-…` in the directory of a digest path. -/
  | temporary (directory : String) (suffix : Nat)
  deriving DecidableEq

structure Files where
  names : Path → Option Nat
  nodes : Nat → Node
  /-- The nodes from here on are not in use. -/
  next : Nat
  /-- The random names `mkstemp` has handed out; it does not repeat itself. -/
  handedOut : List Path

namespace Files

/-- A new node under a name, in place of what had the name. -/
def create (f : Files) (p : Path) (node : Node) : Files :=
  {f with
    names := Function.update f.names p (some f.next)
    nodes := Function.update f.nodes f.next node
    next := f.next + 1}

def link (f : Files) (p : Path) (i : Nat) : Files := {f with names := Function.update f.names p (some i)}

def unlink (f : Files) (p : Path) : Files := {f with names := Function.update f.names p none}

/-- The content of a node changes in place. -/
def rewrite (f : Files) (i : Nat) (content : Bytes) : Files :=
  {f with nodes := Function.update f.nodes i {f.nodes i with content}}

/-- The path names a regular file with this content. -/
def Holds (f : Files) (p : Path) (content : Bytes) : Prop :=
  ∃ i, f.names p = some i ∧ (f.nodes i).kind = .regular ∧ (f.nodes i).content = content

end Files

/-- A write at a position past the end leaves zeros before it. -/
def pwrite (content : Bytes) (position : Nat) (data : Bytes) : Bytes :=
  content.take position ++ List.replicate (position - content.length) 0 ++ data ++
    content.drop (position + data.length)

/-- What the system decides about one call of it. -/
structure Answer where
  fails : Bool := false
  /-- How many bytes one read or write moves at most; it moves one if it can. -/
  amount : Nat := 0
  suffix : Nat := 0
  inode : Nat × Nat := (0, 0)

/-- One `read` of the system; nothing comes back at the end of the file only. -/
def rawRead (content : Bytes) (position want amount : Nat) : Bytes :=
  (content.drop position).take (min want (max 1 amount))

/-! ### Errors -/

inductive StorageError
  | casIntegrity (message : String)
  | casReadLimit (message : String)
  | value (message : String)
  | fileNotFound
  | os
  deriving DecidableEq, Repr

def unexpectedContent : StorageError := .casIntegrity "CAS digest path contains unexpected content"

def notRegular : StorageError := .casIntegrity "CAS digest path is not a regular file"

/-! ### `_verify_existing` -/

inductive Verification
  | lstat
  | opening
  | fstat (fd : Nat)
  /-- The bytes compared so far, and those `handle.read` has collected for the next chunk. -/
  | reading (fd : Nat) (seen chunk : Bytes)
  deriving DecidableEq

inductive Verdict
  | ongoing (v : Verification)
  | found
  /-- `FileNotFoundError` -/
  | missing
  | failed (e : StorageError)
  deriving DecidableEq

def chunkSize : Nat := 1024 * 1024

section Verify
variable (H : Hash)

/-- `handle.read` has returned a chunk. -/
def compareChunk (body : Bytes) (fd : Nat) (seen chunk : Bytes) : Verdict :=
  if chunk = [] then
    if seen.length ≠ body.length ∨ H.hexdigest seen ≠ H.hexdigest body then .failed unexpectedContent else .found
  else if chunk ≠ (body.drop seen.length).take chunk.length then .failed unexpectedContent
  else .ongoing (.reading fd (seen ++ chunk) [])

def verifyExisting (f : Files) (body : Bytes) (a : Answer) : Verification → Verdict
  | .lstat =>
    if a.fails then .failed .os
    else match f.names (.digest (H.hexdigest body)) with
      | none => .missing
      | some i => if (f.nodes i).kind = .regular then .ongoing .opening else .failed notRegular
  | .opening =>
    if a.fails then .failed (.casIntegrity "CAS digest path could not be verified safely")
    else match f.names (.digest (H.hexdigest body)) with
      | none => .missing
      | some i =>
        -- O_NOFOLLOW
        if (f.nodes i).kind = .symlink then .failed (.casIntegrity "CAS digest path could not be verified safely")
        else .ongoing (.fstat i)
  | .fstat fd =>
    if a.fails then .failed .os
    else if (f.nodes fd).kind ≠ .regular ∨ (f.nodes fd).content.length ≠ body.length then .failed unexpectedContent
    else .ongoing (.reading fd [] [])
  | .reading fd seen chunk =>
    if a.fails then .failed .os
    else
      let data := rawRead (f.nodes fd).content (seen.length + chunk.length) (chunkSize - chunk.length) a.amount
      if data ≠ [] ∧ (chunk ++ data).length < chunkSize then .ongoing (.reading fd seen (chunk ++ data))
      else compareChunk H body fd seen (chunk ++ data)

end Verify

/-! ### `put` -/

/-- The temporary file of a `put`: its name, and the node its descriptor opened. -/
structure Temporary where
  name : Path
  fd : Nat
  deriving DecidableEq

/-- `(uri, digest, size)` -/
abbrev Stored := String × String × Nat

inductive PutPc
  /-- `mkdir` of the parent -/
  | entering
  | checking (v : Verification)
  | staging
  | writing (t : Temporary) (written : Nat)
  | linking (t : Temporary) (attempt : Nat)
  /-- After `link`: of attempt `occupied` if the target existed. -/
  | confirming (t : Temporary) (occupied : Option Nat) (v : Verification)
  /-- `_fsync_directory_chain` -/
  | securing (t : Option Temporary)
  /-- `finally: unlink` -/
  | cleaning (t : Temporary) (outcome : Except StorageError Stored)
  | finished (t : Option Temporary) (outcome : Except StorageError Stored)
  deriving DecidableEq

def casPrefix : String := "cas://sha256/"

section Put
variable (H : Hash)

def stored (body : Bytes) : Stored := (casPrefix ++ H.hexdigest body, H.hexdigest body, body.length)

/-- `except FileNotFoundError: continue` in `for _attempt in range(2)`. -/
def nextAttempt (t : Temporary) (attempt : Nat) : PutPc :=
  if attempt + 1 < 2 then .linking t (attempt + 1)
  else .cleaning t (.error (.casIntegrity "CAS target changed while content was being published"))

/-- The directory part of a digest path. -/
def parent (digest : String) : String := String.ofList (digest.toList.take 4)

/-- `os.link(temporary_name, target, follow_symlinks=False)` -/
def linkTarget (f : Files) (body : Bytes) (t : Temporary) (attempt : Nat) : PutPc × Files :=
  match f.names t.name with
  | none => (.cleaning t (.error .fileNotFound), f)
  | some i =>
    match f.names (.digest (H.hexdigest body)) with
    | some _ => (.confirming t (some attempt) .lstat, f)
    | none =>
      if (f.nodes i).kind = .directory then (.cleaning t (.error .os), f)
      else (.confirming t none .lstat, f.link (.digest (H.hexdigest body)) i)

/-- `Path(temporary_name).unlink(missing_ok=True)`; a directory is not unlinked. -/
def unlinkTemporary (f : Files) (t : Temporary) (outcome : Except StorageError Stored) : PutPc × Files :=
  match f.names t.name with
  | none => (.finished (some t) outcome, f)
  | some i =>
    if (f.nodes i).kind = .directory then (.finished (some t) (.error .os), f)
    else (.finished (some t) outcome, f.unlink t.name)

/-- The next system call of `put`. -/
def putStep (f : Files) (body : Bytes) (a : Answer) : PutPc → Option (PutPc × Files)
  | .entering => some (if a.fails then .finished none (.error .os) else .checking .lstat, f)
  | .checking v =>
    match verifyExisting H f body a v with
    | .ongoing v => some (.checking v, f)
    | .found => some (.securing none, f)
    | .missing => some (.staging, f)
    | .failed e => some (.finished none (.error e), f)
  | .staging =>
    if a.fails then some (.finished none (.error .os), f)
    else
      let name := Path.temporary (parent (H.hexdigest body)) a.suffix
      if f.names name = none ∧ name ∉ f.handedOut then
        some (.writing ⟨name, f.next⟩ 0, {f.create name ⟨.regular, a.inode, []⟩ with handedOut := name :: f.handedOut})
      else none
  | .writing t written =>
    if a.fails then some (.cleaning t (.error .os), f)
    else if written < body.length then
      let data := (body.drop written).take (max 1 a.amount)
      some (.writing t (written + data.length), f.rewrite t.fd (pwrite (f.nodes t.fd).content written data))
    -- All is flushed: fsync.
    else some (.linking t 0, f)
  | .linking t attempt =>
    if a.fails then some (.cleaning t (.error .os), f) else some (linkTarget H f body t attempt)
  | .confirming t occupied v =>
    match verifyExisting H f body a v with
    | .ongoing v => some (.confirming t occupied v, f)
    | .found => some (.securing (some t), f)
    | .missing =>
      match occupied with
      | none => some (.cleaning t (.error .fileNotFound), f)
      | some attempt => some (nextAttempt t attempt, f)
    | .failed e => some (.cleaning t (.error e), f)
  | .securing t =>
    let outcome : Except StorageError Stored := if a.fails then .error .os else .ok (stored H body)
    match t with
    | none => some (.finished none outcome, f)
    | some t => some (.cleaning t outcome, f)
  | .cleaning t outcome => some (unlinkTemporary f t outcome)
  | .finished _ _ => none

end Put

/-! ### `get` -/

inductive GetPc
  | lstat (digest : String)
  | opening (digest : String) (inode : Nat × Nat)
  | fstat (digest : String) (inode : Nat × Nat) (fd : Nat)
  | reading (digest : String) (fd expected : Nat) (chunks : Bytes)
  /-- The second `fstat`. -/
  | confirming (digest : String) (fd expected : Nat) (chunks : Bytes)
  | finished (outcome : Except StorageError Bytes)
  deriving DecidableEq

/-- The URI's digest, if it has the prefix. -/
def uriDigest (uri : String) : Option String :=
  if casPrefix.toList <+: uri.toList then some (String.ofList (uri.toList.drop casPrefix.toList.length)) else none

/-- `get` up to its first system call. -/
def getStart (uri : String) (maximumBytes : Option Int) : GetPc :=
  match uriDigest uri with
  | none => .finished (.error (.value "unsupported CAS URI"))
  | some digest =>
    if isDigest digest = false then .finished (.error (.value "invalid SHA-256 digest"))
    else if ∃ bound ∈ maximumBytes, bound < 0 then
      .finished (.error (.casIntegrity "CAS read bound must be non-negative"))
    else .lstat digest

def exceeded : StorageError := .casReadLimit "CAS artifact exceeds the requested read bound"

section Get
variable (H : Hash)

/-- The next system call of `get`. -/
def getStep (f : Files) (maximumBytes : Option Int) (a : Answer) : GetPc → Option GetPc
  | .lstat digest => some <|
    if a.fails then .finished (.error .os)
    else match f.names (.digest digest) with
      | none => .finished (.error .fileNotFound)
      | some i =>
        if (f.nodes i).kind = .regular then .opening digest (f.nodes i).inode else .finished (.error notRegular)
  | .opening digest inode => some <|
    if a.fails then .finished (.error (.casIntegrity "CAS digest path could not be opened safely"))
    else match f.names (.digest digest) with
      | none => .finished (.error .fileNotFound)
      | some i =>
        if (f.nodes i).kind = .symlink then
          .finished (.error (.casIntegrity "CAS digest path could not be opened safely"))
        else .fstat digest inode i
  | .fstat digest inode fd => some <|
    if a.fails then .finished (.error .os)
    else if (f.nodes fd).kind ≠ .regular then .finished (.error notRegular)
    else if inode ≠ (f.nodes fd).inode then
      .finished (.error (.casIntegrity "CAS digest path changed while it was being opened"))
    else if ∃ bound ∈ maximumBytes, bound < (f.nodes fd).content.length then .finished (.error exceeded)
    else .reading digest fd (f.nodes fd).content.length []
  | .reading digest fd expected chunks => some <|
    if a.fails then .finished (.error .os)
    else
      let want := min chunkSize (max 1 (expected - chunks.length + 1))
      let chunk := rawRead (f.nodes fd).content chunks.length want a.amount
      if chunk = [] then .confirming digest fd expected chunks
      else if expected < (chunks ++ chunk).length ∨ ∃ bound ∈ maximumBytes, bound < (chunks ++ chunk).length then
        .finished (.error exceeded)
      else .reading digest fd expected (chunks ++ chunk)
  | .confirming digest fd expected chunks => some <|
    if a.fails then .finished (.error .os)
    else if chunks.length ≠ expected ∨ (f.nodes fd).content.length ≠ expected then
      .finished (.error (.casIntegrity "CAS digest path changed while it was being read"))
    else if H.hexdigest chunks ≠ digest then
      .finished (.error (.casIntegrity "CAS artifact digest does not match its URI"))
    else .finished (.ok chunks)
  | .finished _ => none

end Get

/-! ### The store at work -/

inductive Call
  | put (body : Bytes) (pc : PutPc)
  | get (uri : String) (maximumBytes : Option Int) (pc : GetPc)
  deriving DecidableEq

structure State where
  files : Files
  calls : Nat → Option Call

def State.setCall (s : State) (id : Nat) (c : Call) : State := {s with calls := Function.update s.calls id (some c)}

inductive Act
  | put (id : Nat) (body : Bytes)
  | get (id : Nat) (uri : String) (maximumBytes : Option Int)
  /-- The next system call of a running call. -/
  | step (id : Nat) (a : Answer)
  -- From outside.
  | delete (p : Path)
  | truncate (p : Path) (size : Nat)
  | overwrite (p : Path) (content : Bytes)
  /-- Another file, a symbolic link or a directory takes the path. -/
  | replace (p : Path) (node : Node)

/-- Something done to the files by others than the store. -/
def Act.outside : Act → Bool
  | .put .. | .get .. | .step .. => false
  | .delete _ | .truncate .. | .overwrite .. | .replace .. => true

/-- A change in place reaches regular files. -/
def changeInPlace (f : Files) (p : Path) (change : Bytes → Bytes) : Option Files :=
  match f.names p with
  | none => none
  | some i => if (f.nodes i).kind = .regular then some (f.rewrite i (change (f.nodes i).content)) else none

def step (H : Hash) (s : State) : Act → Option State
  | .put id body => if s.calls id = none then some (s.setCall id (.put body .entering)) else none
  | .get id uri maximumBytes =>
    if s.calls id = none then some (s.setCall id (.get uri maximumBytes (getStart uri maximumBytes))) else none
  | .step id a =>
    match s.calls id with
    | none => none
    | some (.put body pc) =>
      (putStep H s.files body a pc).map fun (pc, files) => {s with files}.setCall id (.put body pc)
    | some (.get uri maximumBytes pc) =>
      (getStep H s.files maximumBytes a pc).map fun pc => s.setCall id (.get uri maximumBytes pc)
  | .delete p => some {s with files := s.files.unlink p}
  | .truncate p size => (changeInPlace s.files p (·.take size)).map fun files => {s with files}
  | .overwrite p content => (changeInPlace s.files p fun _ => content).map fun files => {s with files}
  | .replace p node => some {s with files := s.files.create p node}

def machine (H : Hash) : Lib.Machine State Act := ⟨step H⟩

/-- Any files below the root, and no call yet. -/
structure Begins (s : State) : Prop where
  quiet : ∀ id, s.calls id = none
  used : ∀ p i, s.files.names p = some i → i < s.files.next

end Fetech.Storage
