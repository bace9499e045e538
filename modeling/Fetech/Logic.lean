import Fetech.Planning
import Fetech.Parsers.Reading
import Fetech.Lib.JsonFaults

/-! Optional logic backends (`fetech/logic`), and the coordinator that checks what they propose.

A planner backend sees the plan of the deterministic planner, its baseline, and proposes one; the
coordinator accepts a proposal that has the baseline's request and nodes and otherwise falls back
to Python. The Clingo backend has the solver prove the baseline: it writes facts about its nodes
below the rules of `planner.lp` and reads the one answer set back. What the processes print is
whatever they print. -/
namespace Fetech.Logic
open Planning Lib Lib.Except

deriving instance DecidableEq for FetchRequest

inductive BackendStatus where
  | succeeded | fallback | unavailable | failed
  deriving DecidableEq, Repr

/-- What planning and explaining raise. -/
inductive Failure where
  /-- The baseline planner's. -/
  | planning (err : PlanError)
  /-- The `ValueError` of a setting that names no backend. -/
  | unsupported (backend : String)
  /-- `BackendUnavailableError` -/
  | unavailable (executable : String)
  /-- `BackendExecutionError`, of the process. -/
  | process (message : String)
  | exited (returncode : Int) (stderr : String)
  /-- `BackendOutputError`, from here on. -/
  | overlong
  | malformed
  | answerSets (found : Nat)
  | parity (missing extra : List Text)
  | sensitive (key : String)
  | changedCapability
  | contradiction
  /-- `ValueError`, from here on; a `UnicodeDecodeError` is one. -/
  | undecodable
  | digits
  | changedRequest
  | nondeterministic
  | duplicateIds
  | changedNodes
  | deniedNode (capability : String)
  | invalidTarget
  | notBound
  /-- The `KeyError` of the registry. -/
  | unknownCapability (id : String)
  /-- An exception that no handler here names: an `OSError`, a `TypeError`, a `RecursionError`. -/
  | foreign
  deriving DecidableEq

namespace Failure

/-- A `LogicBackendError`. -/
def ofBackend : Failure → Bool
  | unavailable _ | process _ | exited _ _ | overlong | malformed | answerSets _ | parity _ _ | sensitive _
  | changedCapability | contradiction => true
  | _ => false

/-- A `LogicBackendError` or a `ValueError`. -/
def handled : Failure → Bool
  | planning (.unknownCapability _) | unknownCapability _ | foreign => false
  | _ => true

end Failure

/-- `f"{backend.name} fallback: {exc}"` -/
structure FallbackNote where
  backend : String
  cause : Failure
  deriving DecidableEq

/-- A plan with what a backend could change of it besides its nodes. -/
structure Plan extends FetchPlan where
  deterministic : Bool := true
  warnings : List FallbackNote := []

structure PlanProposal where
  backend : String
  status : BackendStatus
  plan : Plan
  executableVersion : Option String := none
  rulesetSha256 : Option String := none
  manifestVersion : Option String := none
  manifestSha256 : Option String := none
  inputSha256 : Option String := none
  resultSha256 : Option String := none
  diagnostics : List FallbackNote := []

structure PlannerBackend where
  name : String
  propose : FetchRequest → Plan → Except Failure PlanProposal

/-- `PythonPlannerBackend` -/
def pythonPlanner : PlannerBackend where
  name := "python"
  propose _ baseline := .ok {
    backend := "python", status := .succeeded, plan := {baseline with classifier := "python-rules-v1"} }

/-! ### Clingo -/

/-- The atoms of `planner.lp`. -/
inductive Atom where
  | manifestVersion (version : String)
  | node (id : String)
  | required (id : String)
  | unavailable (id : String)
  | denied (id : String)
  | dependency (id on : String)
  | selected (id : String)
  deriving DecidableEq

/-- `_asp_string` -/
def aspString (value : String) : Text := JsonText.writeString true (Text.ofString value)

def Atom.text : Atom → Text
  | manifestVersion version => Text.ofString "manifest_version(" ++ aspString version ++ Text.ofString ")"
  | node id => Text.ofString "node(" ++ aspString id ++ Text.ofString ")"
  | required id => Text.ofString "required(" ++ aspString id ++ Text.ofString ")"
  | unavailable id => Text.ofString "unavailable(" ++ aspString id ++ Text.ofString ")"
  | denied id => Text.ofString "denied(" ++ aspString id ++ Text.ofString ")"
  | dependency id on =>
    Text.ofString "dependency(" ++ aspString id ++ Text.ofString "," ++ aspString on ++ Text.ofString ")"
  | selected id => Text.ofString "selected(" ++ aspString id ++ Text.ofString ")"

section
variable (registry : CapabilityRegistry)

/-- The facts about a node. -/
def nodeFacts (request : FetchRequest) (node : PlanNode) : Except Failure (List Atom) := do
  let entry ← ofOption (.unknownCapability node.capabilityId) (registry.get node.capabilityId)
  return [.node node.id, .required node.id]
    ++ (if entry.implementationAvailable then [] else [.unavailable node.id])
    ++ (if request.denyCapabilities.contains entry.id then [.denied node.id] else [])
    ++ node.dependencies.map (.dependency node.id)

/-- `_facts`, before they are written. -/
def facts (version : String) (request : FetchRequest) (nodes : List PlanNode) : Except Failure (List Atom) := do
  let ofNodes ← nodes.mapM (nodeFacts registry request)
  return .manifestVersion version :: ofNodes.flatten

end

/-- Facts as `_facts` writes them, one a line. -/
def factsText (atoms : List Atom) : Text :=
  [Parsers.newline].intercalate (atoms.map fun atom => atom.text ++ Text.ofString ".")

/-- The input of the solver. -/
def programText (rules : Text) (atoms : List Atom) : Text := rules ++ Parsers.newline :: factsText atoms

/-- What a process left. -/
structure ProcessResult where
  returncode : Int
  stdout : List UInt8
  stderr : String := ""

section
variable {φ : Type} (library : Parsers.ReaderLibrary φ)

/-- `json.loads` of what a process printed. -/
def loadOutput (output : List UInt8) : Except Failure (JsonValue φ) := do
  let text ← ofOption .undecodable (Parsers.decodeJson library.otherEncodings output)
  let read := JsonText.loadsOrFault library.floats (Parsers.readerHooks library.constant) (library.recursionLimit text) text
  read.mapError fun
    | .malformed => .malformed
    | .digits => .digits
    | .recursion => .foreign

/-- `document["Call"][0]["Witnesses"]`; `none` is an error that is reported as malformed output. -/
def witnesses : JsonValue φ → Option (JsonValue φ)
  | .object fields =>
    match JsonValue.get? fields "Call" with
    | some (.array (.object call :: _)) => JsonValue.get? call "Witnesses"
    | _ => none
  | _ => none

/-- The only witness; anything may stand where the list of them is expected. -/
def onlyWitness : JsonValue φ → Except Failure (List (Text × JsonValue φ))
  | .array [.object witness] => .ok witness
  | .array [_] => .error .foreign
  | .array items => .error (.answerSets items.length)
  | .string [_] => .error .foreign
  | .string s => .error (.answerSets s.length)
  | .object [_] => .error .foreign
  | .object fields => .error (.answerSets fields.length)
  | _ => .error .foreign

/-- What `_SELECTED.fullmatch` takes. -/
def shownAtom : JsonValue φ → Except Failure Text
  | .string s => .ok s
  | _ => .error .foreign

/-- The strings of `witness.get("Value", [])`. -/
def shownAtoms (witness : List (Text × JsonValue φ)) : Except Failure (List Text) :=
  match JsonValue.get? witness "Value" with
  | none => .ok []
  | some (.array items) => items.mapM shownAtom
  | some (.string s) => .ok (s.map ([·]))
  | some (.object fields) => .ok (fields.map Prod.fst)
  | some _ => .error .foreign

/-- `_SELECTED.fullmatch`, and its group. -/
def selectedName (value : Text) : Option Text :=
  let start := Text.ofString "selected(\""
  let stop := Text.ofString "\")"
  if start.isPrefixOf value && stop.isSuffixOf (value.drop start.length) then
    let name := (value.drop start.length).dropLast.dropLast
    if !name.isEmpty && name.all (fun c => c != JsonText.quote && c != JsonText.backslash) then some name else none
  else none

/-- `_selected_nodes` -/
def selectedNodes (output : List UInt8) : Except Failure (List Text) := do
  let document ← loadOutput library output
  let witnesses ← ofOption .malformed (witnesses document)
  let witness ← onlyWitness witnesses
  return (← shownAtoms witness).filterMap selectedName

end

/-- What the backend finds outside: `_command()`, the rules, the solver and `--version`. -/
structure Solver where
  executable : String := "clingo"
  command : Option (List String)
  rules : Except Failure Text
  run : Text → Except Failure ProcessResult
  version : Except Failure (Option String)

def ascending (texts : List Text) : List Text := texts.eraseDups.mergeSort fun a b => decide (a ≤ b)

/-- The registry's manifest, as the backend reads it. -/
structure Manifest where
  version : String
  sha256 : Except Failure String

/-- The baseline, proved, with what it was proved by. -/
def clingoProposal {φ : Type} (floats : JsonText.Floats φ) (manifest : Manifest) (sha256 : Text → String) (baseline : Plan)
    (rules program : Text) (selected : List Text) (version : Option String) (manifestSha256 : String) : PlanProposal where
  backend := "clingo"
  status := .succeeded
  plan := {baseline with classifier := "clingo-asp-v1"}
  executableVersion := version
  rulesetSha256 := sha256 rules
  manifestVersion := manifest.version
  manifestSha256 := manifestSha256
  inputSha256 := sha256 program
  resultSha256 := sha256 (JsonText.write floats true (.array ((ascending selected).map .string)))

/-- `ClingoPlannerBackend`; `sha256` is the digest of a text's UTF-8. -/
def clingoPlanner {φ : Type} (library : Parsers.ReaderLibrary φ) (registry : CapabilityRegistry) (manifest : Manifest)
    (sha256 : Text → String) (solver : Solver) : PlannerBackend where
  name := "clingo"
  propose request baseline := do
    require solver.command.isSome (.unavailable solver.executable)
    let rules ← solver.rules
    let atoms ← facts registry manifest.version request baseline.nodes
    let program := programText rules atoms
    let result ← solver.run program
    require ([0, 10, 20, 30].contains result.returncode) (.exited result.returncode result.stderr)
    let selected ← selectedNodes library result.stdout
    let expected := baseline.nodes.map fun node => Text.ofString node.id
    let missing := expected.filter (!selected.contains ·)
    let extra := selected.filter (!expected.contains ·)
    require (missing.isEmpty && extra.isEmpty) (.parity (ascending missing) (ascending extra))
    let version ← solver.version
    let manifestSha256 ← manifest.sha256
    return clingoProposal library.floats manifest sha256 baseline rules program selected version manifestSha256

/-! ### The coordinator -/

/-- `LogicCoordinator`, with the settings it reads. -/
structure LogicCoordinator where
  planner : Planner
  plannerBackend : String := "python"
  reasonerBackend : String := "python"
  logicFallback : Bool := true
  clingo : PlannerBackend

theorem bound_request {published normalized : FetchRequest} {target : String}
    (h : {normalized with target} = published) : published = {normalized with target := published.target} := by
  subst h
  rfl

/-- `bind_execution_request`, on a plan that exists. -/
def bindExecutionRequest (p : Planner) (plan : Plan) (request : FetchRequest) : Except Failure Plan := do
  let target ← ofOption .invalidTarget (normalizeUrl p.codecs request.target)
  let normalized := {request with target}
  if h : {normalized with target := p.sanitizeUrlForRequest target normalized} = plan.request then
    return {plan with executionRequest := normalized, bound := bound_request h}
  else .error .notBound

namespace LogicCoordinator
variable (c : LogicCoordinator)

def planBaseline (request : FetchRequest) (hbudget : request.budget.Valid) : Except Failure Plan :=
  ((c.planner.plan request hbudget).mapError .planning).map fun plan => {toFetchPlan := plan}

/-- `_planner_backend` -/
def backend : Except Failure PlannerBackend :=
  if c.plannerBackend = "python" then .ok pythonPlanner
  else if c.plannerBackend = "clingo" then .ok c.clingo
  else .error (.unsupported c.plannerBackend)

/-- The check of a node. -/
def checkNode (request : FetchRequest) (node : PlanNode) : Except Failure Unit := do
  require (c.planner.registry.get node.capabilityId).isSome (.unknownCapability node.capabilityId)
  require (!request.denyCapabilities.contains node.capabilityId) (.deniedNode node.capabilityId)

/-- `_validate_plan`, which plans once more. -/
def validatePlan (plan : Plan) (request : FetchRequest) (hbudget : request.budget.Valid) : Except Failure Unit := do
  let baseline ← c.planBaseline request hbudget
  require (plan.request = baseline.request) .changedRequest
  require plan.deterministic .nondeterministic
  require (plan.nodes.map (·.id)).Nodup .duplicateIds
  require (plan.nodes = baseline.nodes) .changedNodes
  plan.nodes.forM (c.checkNode request)

/-- What `plan` tries. -/
def attempt (backend : PlannerBackend) (baseline : Plan) (request : FetchRequest) (hbudget : request.budget.Valid) :
    Except Failure PlanProposal := do
  let proposal ← backend.propose request baseline
  c.validatePlan proposal.plan request hbudget
  let plan ← bindExecutionRequest c.planner proposal.plan baseline.executionRequest
  return {proposal with plan}

/-- The Python planner's proposal, with the reason for it. -/
def fallBack (name : String) (cause : Failure) (baseline : Plan) (request : FetchRequest) :
    Except Failure PlanProposal := do
  let proposal ← pythonPlanner.propose request baseline
  let note : FallbackNote := {backend := name, cause}
  let noted := {proposal.plan with warnings := proposal.plan.warnings ++ [note]}
  let plan ← bindExecutionRequest c.planner noted baseline.executionRequest
  return {proposal with status := .fallback, diagnostics := [note], plan}

/-- `plan` -/
def plan (request : FetchRequest) (hbudget : request.budget.Valid) : Except Failure PlanProposal := do
  let baseline ← c.planBaseline request hbudget
  let backend ← c.backend
  match c.attempt backend baseline request hbudget with
  | .ok proposal => return proposal
  | .error cause =>
    if !cause.handled || !c.logicFallback || backend.name == "python" then .error cause
    else c.fallBack backend.name cause baseline request

end LogicCoordinator

end Fetech.Logic
