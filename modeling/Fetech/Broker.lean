import Fetech.Lib.Shortlist
import Fetech.Lib.PosixPath
import Fetech.Media.Subtitles
import Fetech.Parsers.Reading

/-! The context broker (`fetech/context.py`).

A question is put to three programs: `graphify` answers from the graph of the repository, `qmd` from
the notes of a vault, and `rg` with lines of the repository that have words of the question. What
they print is bytes of any kind; the answer holds what could be read of it, within a number of
tokens. Beside the answer `search` gives the sources that the programs' outputs were read as, which
the code does not keep. -/
namespace Fetech.Broker
open Lib Lib.Except Lib.JsonText

/-! ### Limits -/

inductive SearchError where
  /-- A `ValueError` of a check. -/
  | value (message : String)
  /-- A text without an encoding. -/
  | encode
  /-- An argument that no program can be given. -/
  | argument
  /-- An `OSError` of the start of a program, but for `FileNotFoundError`. -/
  | launch
  /-- What `json.loads` raises besides `JSONDecodeError`. -/
  | reader
  /-- The `TypeError` of a loop over what is no iterable. -/
  | notIterable
  /-- What `exists`, `is_dir`, `expanduser` or `resolve` raises. -/
  | path
  /-- What `str` or `float` raises. -/
  | conversion
  /-- A `ValidationError`. -/
  | validation
  deriving DecidableEq

/-- `_MAX_QUESTION_BYTES`. -/
def maximumQuestionBytes : Nat := 16384

/-- `_MAX_QMD_NOTES`. -/
def maximumQmdNotes : Nat := 100

/-- `_CONTEXT_PROCESS_OUTPUT_BYTES`. -/
def maximumOutputBytes : Nat := 2000000

structure ContextBudget where
  graphifyTokens : Nat := 1200
  qmdTokens : Nat := 1200
  sourceTokens : Nat := 2000
  totalTokens : Nat := 4000
  hardCeiling : Nat := 8000
  qmdNotes : Nat := 3
  positive : 0 < totalTokens := by decide
  bounded : totalTokens ≤ hardCeiling := by decide
  notes : 1 ≤ qmdNotes ∧ qmdNotes ≤ maximumQmdNotes := by decide

/-- `ContextBudget.__post_init__`, of integers. -/
def ContextBudget.postInit (graphify qmd source total ceiling notes : Int) : Except SearchError ContextBudget :=
  if min graphify (min qmd source) < 0 then .error (.value "context source token budgets cannot be negative")
  else if hpositive : total ≤ 0 ∨ ceiling ≤ 0 then .error (.value "context total token budgets must be positive")
  else if hbounded : ceiling < total then .error (.value "default context budget cannot exceed its hard ceiling")
  else if hnotes : 1 ≤ notes ∧ notes ≤ maximumQmdNotes then
    .ok {
      graphifyTokens := graphify.toNat
      qmdTokens := qmd.toNat
      sourceTokens := source.toNat
      totalTokens := total.toNat
      hardCeiling := ceiling.toNat
      qmdNotes := notes.toNat
      positive := by omega
      bounded := by omega
      notes := by omega }
  else .error (.value "QMD note limit must be an integer from 1 to 100")

/-! ### Words -/

def isWordStart (c : CodePoint) : Bool :=
  (0x41 ≤ c.val && c.val ≤ 0x5a) || (0x61 ≤ c.val && c.val ≤ 0x7a) || c.val = 0x5f

def isWordRest (c : CodePoint) : Bool := isWordStart c || isDigit c || c = minus

/-- `re.findall(r"[A-Za-z_][A-Za-z0-9_-]{2,}", question)`, from inside a match of which some
characters are still to come. -/
def findWords : Nat → Text → List Text
  | _, [] => []
  | pending + 1, _ :: rest => findWords pending rest
  | 0, c :: rest =>
    let more := rest.takeWhile isWordRest
    if isWordStart c && 2 ≤ more.length then (c :: more) :: findWords more.length rest else findWords 0 rest

def ignored : List Text :=
  ["about", "from", "have", "into", "that", "the", "this", "what", "when", "where", "which", "with"].map Text.ofString

/-- `word.lower()`, of what the pattern matches. -/
def lower (word : Text) : Text :=
  word.map fun c => if 0x41 ≤ c.val && c.val ≤ 0x5a then Fin.ofNat 0x110000 (c.val + 0x20) else c

/-- `_terms`. -/
def terms (question : Text) : List Text := (findWords 0 question).filter fun word => lower word ∉ ignored

/-- The question of the retry: the first six words. -/
def simplified (question : Text) : Text := [0x20].intercalate ((terms question).take 6)

/-- The characters before which `re.escape` puts a backslash. -/
def specialCharacters : Text := Text.ofString "()[]\x7b\x7d?*+-|^$\\.&~# \t\n\r\x0b\x0c"

/-- `re.escape`. -/
def reEscape (term : Text) : Text := term.flatMap fun c => if c ∈ specialCharacters then [backslash, c] else [c]

/-- The pattern for `rg`. -/
def pattern (question : Text) : Text := [0x7c].intercalate (((terms question).take 8).map reEscape)

/-! ### Sources -/

/-- `_truncate`. -/
def truncate (text : Text) (tokenLimit : Nat) : Text := text.take (tokenLimit * 4)

/-- `_estimate_tokens`. -/
def estimateTokens (text : Text) : Nat := max 1 ((text.length + 3) / 4)

inductive SourceType where
  | graphify | obsidian | source
  deriving DecidableEq

/-- A source that was validated: its texts have an encoding. -/
structure ContextSource (φ : Type) where
  sourceType : SourceType
  title : Text
  locator : Text
  excerpt : Text
  score : φ
  provenance : String
  encodable : (Text.encodable title && Text.encodable locator && Text.encodable excerpt) = true

variable {φ : Type}

/-- What `_deduplicate` tells sources apart by. -/
def ContextSource.key (s : ContextSource φ) : Text × Text := (s.locator, s.excerpt)

/-- What the broker takes from the interpreter and its library: numbers, `str` of lists and
dictionaries, the order of scores (which is none among NaN), at which texts the reader of JSON meets
a limit of its own (on nesting or on digits), and the paths of the file system. -/
structure Platform (φ : Type) where
  floats : Floats φ
  ofInt : Int → Option φ
  ofText : Text → Option φ
  /-- Whether a number is not below zero. -/
  isNonnegative : φ → Bool
  constants : isNonnegative (floats.ofText (Text.ofString "1.0")) = true ∧ isNonnegative (floats.ofText (Text.ofString "0.7")) = true
  /-- `min(1.0, 0.35 * n)` -/
  confidence : Nat → φ
  container : JsonValue φ → Option Text
  /-- `sorted(sources, key=lambda item: item.score, reverse=True)` -/
  sorted : List (ContextSource φ) → List (ContextSource φ)
  sorted_perm : ∀ sources, (sorted sources).Perm sources
  isLimited : Text → Bool
  expanduser : PosixPath → Option PosixPath
  resolve : PosixPath → Option PosixPath

/-- `_deduplicate`. -/
def deduplicate (p : Platform φ) (sources : List (ContextSource φ)) : List (ContextSource φ) :=
  Shortlist.firsts ContextSource.key [] (p.sorted sources)

/-- `ContextSource(…)`; of every field but the score and the texts the type says that it is valid. -/
def contextSource (p : Platform φ) (sourceType : SourceType) (title locator excerpt : Text) (score : φ) (provenance : String) :
    Except SearchError (ContextSource φ) :=
  if h : (Text.encodable title && Text.encodable locator && Text.encodable excerpt) = true then
    if p.isNonnegative score then .ok ⟨sourceType, title, locator, excerpt, score, provenance, h⟩ else .error .validation
  else .error .validation

/-! ### Programs -/

structure ProcessResult where
  returncode : Int
  stdout : Text
  stderr : Text

/-- What comes of starting a program. -/
inductive Outcome where
  | missing
  | refused
  | stalled
  | finished (code : Int) (stdout stderr : List UInt8)

/-- What `_run` makes of it; `none` is an `OSError`. -/
def Outcome.result (program : Text) : Outcome → Option ProcessResult
  | .missing => some ⟨127, [], program ++ Text.ofString " is not installed"⟩
  | .refused => none
  | .stalled => some ⟨124, [], Text.ofString "context subprocess timed out"⟩
  | .finished code stdout stderr =>
    if maximumOutputBytes < stdout.length ∨ maximumOutputBytes < stderr.length then
      some ⟨125, [], Text.ofString "context subprocess exceeded its output limit"⟩
    else some ⟨code, Utf8.decodeReplace stdout, Utf8.decodeReplace stderr⟩

/-- What a search meets: what `exists` of the graph and `is_dir` of the vault return when a question is
asked, if they do not raise, and what comes of each program, by its arguments. -/
structure World where
  graphExists : Text → Option Bool
  vaultIsDir : Text → Option Bool
  outcome : List Text → Outcome

/-- Whether `os.fsencode` takes a text, and no NUL is in it. -/
def isPassable (argument : Text) : Bool :=
  argument.all fun c => c.val ≠ 0 && (!c.isSurrogate || (0xdc80 ≤ c.val && c.val ≤ 0xdcff))

/-- `_run`. -/
def run (world : World) (cwd : PosixPath) (arguments : List Text) : Except SearchError ProcessResult := do
  require ((cwd.asPosix :: arguments).all isPassable) .argument
  ofOption .launch ((world.outcome arguments).result (arguments.headD []))

/-- `str` of a number of tokens. -/
def decimal (n : Nat) : Except SearchError Text := do
  require ((writeNat n).length ≤ maximumDigits) (.value "Exceeds the limit (4300 digits) for integer string conversion")
  return writeNat n

/-! ### Notes -/

section
variable (p : Platform φ)

/-- `json.loads`; `none` is its `JSONDecodeError`. No text is nested more deeply than it is long. -/
def loadNotes (stdout : Text) : Except SearchError (Option (JsonValue φ)) := do
  require (!p.isLimited stdout) .reader
  return loads p.floats (Parsers.readerHooks fun word => some (p.floats.ofText word)) stdout.length stdout

/-- What a loop runs over. -/
def iterate : JsonValue φ → Except SearchError (List (JsonValue φ))
  | .array items => .ok items
  | .object fields => .ok (fields.map fun field => .string field.1)
  | .string s => .ok (s.map fun c => .string [c])
  | _ => .error .notIterable

/-- The documents that `qmd` printed: none, if that is no JSON. -/
def documentsOf (stdout : Text) : Except SearchError (List (JsonValue φ)) := do
  match ← loadNotes p stdout with
  | none => return []
  | some value => iterate value

/-- `str(value)`; `none` is the `RecursionError` of a list or dictionary. -/
def str : JsonValue φ → Option Text
  | .array items => p.container (.array items)
  | .object fields => p.container (.object fields)
  | value => some (Parsers.str p.floats (fun _ => []) value)

/-- `float(value)`; `none` is what it raises. -/
def float : JsonValue φ → Option φ
  | .float x => some x
  | .int n => p.ofInt n
  | .bool value => p.ofInt (if value then 1 else 0)
  | .string s => p.ofText s
  | _ => none

/-- The path that a document of `qmd` names, if that is in the vault. -/
def locatorPath (vault : PosixPath) (document : JsonValue φ) : Except SearchError (Option PosixPath) :=
  match document with
  | .object fields =>
    match JsonValue.get? fields "file" with
    | some (.string rawLocator) => do
      let path ← ofOption .path (p.expanduser (PosixPath.parse rawLocator))
      let path ← ofOption .path (p.resolve (if path.isAbsolute then path else vault.join path))
      return if path.isRelativeTo vault then some path else none
    | _ => .ok none
  | _ => .ok none

/-- `document.get(key, default)`, of a dictionary. -/
def fieldOr (document : JsonValue φ) (key : String) (default : JsonValue φ) : JsonValue φ :=
  match document with
  | .object fields => (JsonValue.get? fields key).getD default
  | _ => default

/-- What a document says of a note in the vault. -/
def note (share : Nat) (path : PosixPath) (document : JsonValue φ) : Except SearchError (ContextSource φ) := do
  let snippet ← ofOption .conversion (str p (fieldOr document "snippet" (.string [])))
  let title ← ofOption .conversion (str p (fieldOr document "title" (.string (Text.ofString "QMD result"))))
  let score ← ofOption .conversion (float p (fieldOr document "score" (.float (p.floats.ofText (Text.ofString "0.0")))))
  contextSource p .obsidian title path.asPosix (truncate snippet share) score "QMD search"

/-- One turn of the loop over the documents. -/
def readDocument (vault : PosixPath) (share : Nat) (document : JsonValue φ) : Except SearchError (Option (ContextSource φ)) := do
  match ← locatorPath p vault document with
  | none => return none
  | some path => do
    let source ← note p share path document
    return some source

end

/-! ### Requests and answers -/

/-- The checks of `search`. -/
def checkRequest (question : Text) (tokenBudget : Option Int) : Except SearchError Unit := do
  let excess := SearchError.value "context question exceeds the bounded byte limit"
  require (question.length ≤ maximumQuestionBytes) excess
  let size ← ofOption .encode (Text.utf8Length? question)
  require (size ≤ maximumQuestionBytes) excess
  require (Media.strip question ≠ []) (.value "context question cannot be blank")
  require (tokenBudget.all (0 < ·)) (.value "context token budget must be a positive integer")

/-- Whether a question without findings is put again, as its words. -/
def retries (question : Text) : Bool := simplified question ≠ [] && simplified question ≠ question

/-- The excerpt of what `rg` printed. -/
def matchedLines (stdout : Text) (tokenLimit : Nat) : Text :=
  truncate (Media.joinLines ((Media.splitlines stdout).take 12)) tokenLimit

/-- What was found for a question: the sources that are left, the number of those that are not,
and all of them. -/
structure Findings (φ : Type) where
  sources : List (ContextSource φ)
  omitted : Nat
  retrieved : List (ContextSource φ)

structure ContextBundle (φ : Type) where
  question : Text
  sources : List (ContextSource φ)
  confidence : φ
  omittedResults : Nat
  tokenBudget : Nat
  estimatedTokens : Nat
  fallbackReason : Option String

/-- The bundle of what was found and the lines that match. Sources are taken from the end. -/
def bundle (p : Platform φ) (question : Text) (limit : Nat) (found : Findings φ) (fallbackReason : Option String)
    (exact : List (ContextSource φ)) : ContextBundle φ × List (ContextSource φ) :=
  let candidates := found.sources ++ exact
  let sources := deduplicate p candidates
  let left := Shortlist.shed (fun s => estimateTokens s.excerpt) limit sources.reverse
    (found.omitted + (candidates.length - sources.length))
  ({
    question
    sources := left.1.reverse
    confidence := p.confidence left.1.length
    omittedResults := left.2
    tokenBudget := limit
    estimatedTokens := (left.1.reverse.map fun s => estimateTokens s.excerpt).sum
    fallbackReason }, found.retrieved ++ exact)

/-! ### The broker -/

/-- A `ContextBroker`, with the paths as `__init__` resolved them. -/
structure ContextBroker where
  repository : PosixPath
  vault : Option PosixPath
  qmdIndex : Text
  budget : ContextBudget

namespace ContextBroker
variable (b : ContextBroker) (p : Platform φ) (world : World)

/-- `self.repository / "graphify-out" / "graph.json"` -/
def graphPath : PosixPath :=
  (b.repository.join (PosixPath.parse (Text.ofString "graphify-out"))).join (PosixPath.parse (Text.ofString "graph.json"))

def graphifyArguments (question budget : Text) : List Text :=
  [Text.ofString "graphify", Text.ofString "query", question, Text.ofString "--budget", budget, Text.ofString "--graph",
    b.graphPath.asPosix]

/-- Whether `_graphify` has tokens and a graph. -/
def hasGraph (question : Text) (tokenLimit : Nat) : Except SearchError Bool :=
  if tokenLimit = 0 then .ok false else ofOption .path (world.graphExists question)

/-- `_graphify`. -/
def graphify (question : Text) (tokenLimit : Nat) : Except SearchError (List (ContextSource φ)) := do
  if !(← hasGraph world question tokenLimit) then return []
  else do
    let budget ← decimal tokenLimit
    let result ← run world b.repository (b.graphifyArguments question budget)
    if result.returncode ≠ 0 ∨ Media.strip result.stdout = [] then .ok []
    else do
      let excerpt := truncate (Media.strip result.stdout) tokenLimit
      let source ← contextSource p .graphify (Text.ofString "Repository architecture graph") b.graphPath.asPosix excerpt
        (p.floats.ofText (Text.ofString "1.0")) "graphify query"
      return [source]

def qmdArguments (question : Text) : List Text :=
  [Text.ofString "qmd", Text.ofString "search", question, Text.ofString "--index", b.qmdIndex, Text.ofString "--format",
    Text.ofString "json", Text.ofString "--full-path", Text.ofString "-n", writeNat (min maximumQmdNotes (b.budget.qmdNotes * 4))]

/-- The vault that `_qmd` searches, if it does. -/
def searchedVault (question : Text) (tokenLimit : Nat) : Except SearchError (Option PosixPath) :=
  match b.vault with
  | none => .ok none
  | some vault =>
    if tokenLimit = 0 then .ok none
    else do
      let isDir ← ofOption .path (world.vaultIsDir question)
      return if isDir then some vault else none

/-- `_qmd`. -/
def qmd (question : Text) (tokenLimit : Nat) : Except SearchError (List (ContextSource φ)) := do
  match ← b.searchedVault world question tokenLimit with
  | none => return []
  | some vault => do
    let result ← run world b.repository (b.qmdArguments question)
    if result.returncode ≠ 0 then .ok []
    else do
      let documents ← documentsOf p result.stdout
      let sources ← documents.mapM (readDocument p vault (tokenLimit / b.budget.qmdNotes))
      return sources.reduceOption

def rgArguments (question : Text) : List Text :=
  [Text.ofString "rg", Text.ofString "-n", Text.ofString "-i", Text.ofString "--glob", Text.ofString "!graphify-out/**",
    Text.ofString "--glob", Text.ofString "!*.lock", pattern question, b.repository.asPosix]

/-- `_exact_source`. -/
def exactSource (question : Text) (tokenLimit : Nat) (exclude : List Text) : Except SearchError (List (ContextSource φ)) :=
  if tokenLimit = 0 ∨ terms question = [] then .ok []
  else do
    let result ← run world b.repository (b.rgArguments question)
    if result.returncode ≠ 0 ∧ result.returncode ≠ 1 then .ok []
    else
      let excerpt := matchedLines result.stdout tokenLimit
      let locator := b.repository.asPosix
      if excerpt = [] ∨ locator ∈ exclude then .ok []
      else do
        let source ← contextSource p .source (Text.ofString "Exact repository matches") locator excerpt
          (p.floats.ofText (Text.ofString "0.7")) "rg exact search"
        return [source]

/-! ### Search -/

/-- The number of tokens of an answer. -/
def limit (tokenBudget : Option Int) : Nat :=
  min (tokenBudget.elim b.budget.totalTokens Int.toNat) b.budget.hardCeiling

/-- The shares of the limit: for `graphify`, for `qmd` and for the rest. -/
def graphLimit (limit : Nat) : Nat := min b.budget.graphifyTokens limit

def qmdLimit (limit : Nat) : Nat := min b.budget.qmdTokens (limit - b.graphLimit limit)

def sourceLimit (limit : Nat) : Nat := limit - b.graphLimit limit - b.qmdLimit limit

/-- A question is put to `graphify` and `qmd`. -/
def ask (limit : Nat) (question : Text) : Except SearchError (Findings φ) := do
  let graphSources ← b.graphify p world question (b.graphLimit limit)
  let qmdSources ← b.qmd p world question (b.qmdLimit limit)
  let candidates := graphSources ++ qmdSources.take b.budget.qmdNotes
  let sources := deduplicate p candidates
  return {
    sources
    omitted := (qmdSources.length - b.budget.qmdNotes) + (candidates.length - sources.length)
    retrieved := graphSources ++ qmdSources }

/-- A question is put to the two, and once more as its words if that gave nothing. -/
def find (limit : Nat) (question : Text) : Except SearchError (Findings φ × Option String) := do
  let first ← b.ask p world limit question
  if first.sources = [] ∧ retries question then do
    let retry ← b.ask p world limit (simplified question)
    return (⟨retry.sources, first.omitted + retry.omitted, first.retrieved ++ retry.retrieved⟩,
      some "simplified query after retrieval miss")
  else return (first, none)

/-- `search`: the bundle, and all sources that were retrieved for it. -/
def search (question : Text) (tokenBudget : Option Int) : Except SearchError (ContextBundle φ × List (ContextSource φ)) := do
  checkRequest question tokenBudget
  let limit := b.limit tokenBudget
  let (found, fallbackReason) ← b.find p world limit question
  let exact ← b.exactSource p world question (b.sourceLimit limit) (found.sources.map (·.locator))
  return bundle p question limit found fallbackReason exact

end ContextBroker

end Fetech.Broker
